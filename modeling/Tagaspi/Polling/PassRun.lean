import Tagaspi.Polling.Pass
import Tagaspi.Runtime.Events

/-!
# A pass of a queue poller as a run

`Polling.Pass` has `pollQueues` as a function on what GASPI holds, and `Runtime.Model` has it as
steps between which everybody else may run. If nobody does, both are the same.

- `Holds`: what GASPI holds in a state of the runtime.
- `Follows`: the runtime has done what the function has done so far.
- `pass_run`: a pass that the function describes is a run of the runtime.
-/

namespace Tagaspi

open Lts Loops

namespace Runtime

variable {T : Type}

/-- The request is completed, and in the queue. -/
def isDone (queue : Nat) (q : Request T) : Bool := decide (q.queue = queue) && q.completed

/-- GASPI may report the completed requests of `r` as `queues`. -/
def Holds (r : Runtime T) (queues : Queues T) : Prop :=
  ∀ queue batch, queues queue = some batch →
    ∃ done, (r.requests.filter (isDone queue)).Perm done ∧ done.map (·.tag) = batch.map (·.tag)

variable [DecidableEq T] {cfg : Config} {r₀ : Runtime T} {ins : Nat}

variable (cfg r₀ ins) in
/-- From `r₀` on, with the poller of instance `ins` as the only one that moves, the runtime has
come to `c`. GASPI holds `queues`, and the tasks in `decreased` have got an event back. -/
structure Follows (queues : Queues T) (decreased : List T) (c : QueuePoll T) (r : Runtime T) :
    Prop where
  run : Reach ((machine T cfg).after r₀) (decreased.map .completed) r
  poller : r.pollers = Function.update r₀.pollers ins c
  holds : Holds r queues
  events : ∀ t, r.events t = r₀.events t - decreased.count t
  waits : r.waits = r₀.waits
  rma : r.rma = r₀.rma
  /-- Nothing is taken that is not completed. -/
  unfinished : (r.requests.filter (!·.completed)).Perm (r₀.requests.filter (!·.completed))

variable {queues : Queues T} {decreased : List T} {c : QueuePoll T} {r : Runtime T}

theorem Follows.at_poller (h : Follows cfg r₀ ins queues decreased c r) : r.pollers ins = c := by
  rw [h.poller, Function.update_self]

/-- A step of the poller that calls nobody. -/
theorem Follows.goto (h : Follows cfg r₀ ins queues decreased c r) {c' : QueuePoll T}
    (hs : Step cfg r [] (r.setPoll ins c')) :
    Follows cfg r₀ ins queues decreased c' (r.setPoll ins c') where
  run := by
    have := h.run.step hs
    rwa [List.append_nil] at this
  poller := by
    show Function.update r.pollers ins c' = _
    rw [h.poller, Function.update_idem]
  holds := h.holds
  events := h.events
  waits := h.waits
  rma := h.rma
  unfinished := h.unfinished

/-- The poller goes through the tags of a batch. -/
theorem Follows.tags (hins : ins < cfg.instances) {queue last n : Nat} {tags : List (Option T)}
    (h : Follows cfg r₀ ins queues decreased (.batch queue last n tags) r) :
    ∃ r', Follows cfg r₀ ins queues (decreased ++ tags.filterMap id)
      (.batch queue last n []) r' := by
  induction tags generalizing decreased r with
  | nil => exact ⟨r, by simpa using h⟩
  | cons tag tags ih =>
    cases tag with
    | none => simpa using ih (h.goto (.pollNull hins h.at_poller))
    | some t =>
      have hs : Follows cfg r₀ ins queues (decreased ++ [t]) (.batch queue last n tags)
          ((r.addEvents t (-1)).setPoll ins (.batch queue last n tags)) := by
        refine ⟨?_, ?_, h.holds, fun u => ?_, h.waits, h.rma, h.unfinished⟩
        · rw [List.map_append]
          exact h.run.step (.pollDecrease hins h.at_poller)
        · show Function.update r.pollers ins _ = _
          rw [h.poller, Function.update_idem]
        · show Function.update r.events t (r.events t + -1) u = _
          by_cases hu : u = t
          · subst hu
            rw [Function.update_self, h.events, List.count_append]
            simp
            omega
          · rw [Function.update_of_ne hu, h.events, List.count_append]
            simp [Ne.symm hu]
      obtain ⟨r', h'⟩ := ih hs
      exact ⟨r', by simpa using h'⟩

/-- A filter that asks for more. -/
theorem filter_filter_of_imp {α : Type} {p q : α → Bool} (h : ∀ x, q x = true → p x = true)
    (l : List α) : (l.filter p).filter q = l.filter q := by
  rw [List.filter_filter]
  refine List.filter_congr fun x _ => ?_
  cases hq : q x with
  | false => rfl
  | true => rw [h x hq]; rfl

/-- `gaspi_request_wait`. -/
theorem Follows.wait (hins : ins < cfg.instances) {queue last : Nat} {batch : List (Completion T)}
    (h : Follows cfg r₀ ins queues decreased (.wait queue last) r)
    (hq : queues queue = some batch) :
    ∃ r', Follows cfg r₀ ins (Function.update queues queue (some (batch.drop batchSize)))
      decreased (.batch queue last (batch.take batchSize).length
        ((batch.take batchSize).map (·.tag))) r' := by
  obtain ⟨done, hperm, htags⟩ := h.holds queue batch hq
  have hdone : ∀ q ∈ done, q.queue = queue ∧ q.completed = true := by
    intro q hmem
    have := (List.mem_filter.mp (hperm.mem_iff.mpr hmem)).2
    simpa [isDone] using this
  have hlen : (done.take batchSize).length = (batch.take batchSize).length := by
    have := congrArg List.length htags
    rw [List.length_map, List.length_map] at this
    rw [List.length_take, List.length_take, this]
  have htake : (done.take batchSize).map (·.tag) = (batch.take batchSize).map (·.tag) := by
    rw [List.map_take, List.map_take, htags]
  -- what stays in GASPI
  let rest := done.drop batchSize ++ r.requests.filter (fun q => !isDone queue q)
  have hsplit : r.requests.Perm (done.take batchSize ++ rest) := by
    rw [← List.append_assoc, List.take_append_drop]
    exact (List.filter_append_perm _ r.requests).symm.trans (hperm.append_right _)
  have hleft : ∀ p : Request T → Bool, (∀ q ∈ done, p q = false) →
      (∀ q, p q = true → isDone queue q = false) → rest.filter p = r.requests.filter p := by
    intro p hnot himp
    show (done.drop batchSize ++ _).filter p = _
    rw [List.filter_append, filter_filter_of_imp fun q hp => by rw [himp q hp]; rfl]
    rw [List.filter_eq_nil_iff.mpr fun q hmem => by simp [hnot q (List.mem_of_mem_drop hmem)],
      List.nil_append]
  have hs : Step cfg r [] { r.setPoll ins (.batch queue last (done.take batchSize).length
      ((done.take batchSize).map (·.tag))) with requests := rest } :=
    .pollWait hins h.at_poller hsplit (List.length_take_le ..)
      fun q hmem => hdone q (List.mem_of_mem_take hmem)
  rw [hlen, htake] at hs
  have hrun := h.run.step hs
  rw [List.append_nil] at hrun
  refine ⟨_, hrun, ?_, ?_, h.events, h.waits, h.rma, ?_⟩
  · show Function.update r.pollers ins _ = _
    rw [h.poller, Function.update_idem]
  · intro queue' batch' hq'
    by_cases heq : queue' = queue
    · subst heq
      rw [Function.update_self] at hq'
      refine ⟨done.drop batchSize, ?_, ?_⟩
      · show (rest.filter (isDone queue')).Perm _
        rw [show rest = _ from rfl, List.filter_append, List.filter_filter]
        rw [List.filter_eq_self.mpr fun q hmem => by
            simp [isDone, hdone q (List.mem_of_mem_drop hmem)],
          List.filter_eq_nil_iff.mpr fun q _ => by simp, List.append_nil]
      · rw [List.map_drop, htags, ← List.map_drop, Option.some.inj hq']
    · rw [Function.update_of_ne heq] at hq'
      obtain ⟨done', hperm', htags'⟩ := h.holds queue' batch' hq'
      refine ⟨done', ?_, htags'⟩
      show (rest.filter (isDone queue')).Perm _
      rw [hleft (isDone queue') (fun q hmem => by simp [isDone, hdone q hmem, Ne.symm heq])
        fun q hp => ?_]
      · exact hperm'
      · have hqueue : q.queue = queue' := by
          have := (Bool.and_eq_true_iff.mp hp).1
          exact of_decide_eq_true this
        simp [isDone, hqueue, heq]
  · show (rest.filter (!·.completed)).Perm _
    rw [hleft (fun q => !q.completed) (fun q hmem => by simp [hdone q hmem]) fun q hp => by
      simp only [Bool.not_eq_true'] at hp
      simp [isDone, hp]]
    exact h.unfinished

/-! ## The loops -/

omit [DecidableEq T] in
/-- A batch that does not abort gives one event back for each request with a task. -/
theorem handleBatch_eq {batch : List (Completion T)} {before after : List T}
    (h : forRange 0 batch.length (handleRequest batch) before = .ok after) :
    after = before ++ tasks batch := by
  have := forRange_ok (I := fun i d => d = before ++ tasks (batch.take i)) (Nat.zero_le _)
    (List.append_nil before).symm (fun i d d' _ hi hd hbody => ?_) h
  · rwa [List.take_length] at this
  · subst hd
    obtain ⟨request, hfetch, hrest⟩ := bind_eq_ok hbody
    have htake : tasks (batch.take (i + 1)) = tasks (batch.take i) ++ tasks [request] := by
      unfold tasks
      rw [List.take_add_one, fetch_eq_ok hfetch, List.filterMap_append]
      rfl
    rw [htake, ← List.append_assoc]
    split_ifs at hrest
    cases htag : request.tag with
    | none =>
      rw [htag] at hrest
      cases hrest
      simp [tasks, htag]
    | some t =>
      rw [htag] at hrest
      cases hrest
      simp [tasks, htag]

omit [DecidableEq T] in
theorem tasks_map (batch : List (Completion T)) :
    (batch.map (·.tag)).filterMap id = tasks batch := by
  unfold tasks
  rw [List.filterMap_map]
  rfl

variable (cfg r₀ ins) in
/-- The runtime follows a pass, with the poller at `c`. -/
def Tracks (s : PollPass T) (c : QueuePoll T) : Prop :=
  ∃ r, Follows cfg r₀ ins s.queues s.decreased c r

/-- **One batch.** -/
theorem Tracks.pollBatch (hins : ins < cfg.instances) {queue last : Nat} {s s' : PollPass T}
    (h : Tracks cfg r₀ ins s (.wait queue last)) (hbatch : pollBatch queue s = .ok s') :
    Tracks cfg r₀ ins s' (.batch queue last s'.completedReqs []) := by
  obtain ⟨r, h⟩ := h
  unfold Tagaspi.pollBatch at hbatch
  cases hq : s.queues queue with
  | none =>
    rw [hq] at hbatch
    cases hbatch
    exact ⟨_, h.goto (.pollInvalid hins h.at_poller)⟩
  | some requests =>
    rw [hq] at hbatch
    obtain ⟨d, hd, hret⟩ := bind_eq_ok hbatch
    cases hret
    obtain ⟨r₁, h₁⟩ := h.wait hins hq
    obtain ⟨r₂, h₂⟩ := h₁.tags hins
    rw [tasks_map, ← handleBatch_eq hd] at h₂
    exact ⟨r₂, h₂⟩

/-- **One queue.** -/
theorem Tracks.pollQueue (hins : ins < cfg.instances) {fuel queue last : Nat} {s s' : PollPass T}
    (h : Tracks cfg r₀ ins s (.wait queue last)) (hqueue : pollQueue fuel queue s = .ok s') :
    Tracks cfg r₀ ins s' (.head ((queue + 1) % 2 ^ cfg.limits.queueBits) last) := by
  obtain ⟨s₁, hs₁, hrest⟩ := bind_eq_ok hqueue
  obtain ⟨⟨r, hr⟩, hend⟩ := whileLoop_ok
    (I := fun s => Tracks cfg r₀ ins s (.batch queue last s.completedReqs []))
    (fun s s' hI hc hbody => by
      obtain ⟨r, hr⟩ := hI
      have hagain := hr.goto (.pollAgain hins hr.at_poller (of_decide_eq_true hc))
      exact Tracks.pollBatch hins ⟨_, hagain⟩ hbody) (h.pollBatch hins hs₁) hrest
  exact ⟨_, hr.goto (.pollNext hins hr.at_poller (of_decide_eq_false hend))⟩

/-- **A pass is a run.** The poller of instance `ins` is between two calls, and GASPI holds
`queues`. If `pollQueues` on them ends without an abort, the runtime has a run in which nobody
else moves, and which does what the function does: it calls `decreaseTaskEvents` for the same
tasks in the same order, and leaves in GASPI what the function leaves. -/
theorem pass_run {fuel : Nat} {pass : PollPass T} (hins : ins < cfg.instances)
    (hidle : r₀.pollers ins = .idle) (hholds : Holds r₀ queues)
    (hpass : pollQueues fuel cfg.limits (cfg.infos ins) queues = .ok pass) :
    ∃ r, Reach ((machine T cfg).after r₀) (pass.decreased.map .completed) r ∧
      Holds r pass.queues ∧ (∀ t, r.events t = r₀.events t - pass.decreased.count t) ∧
      (r.requests.filter (!·.completed)).Perm (r₀.requests.filter (!·.completed)) ∧
      r.pollers = r₀.pollers ∧ r.waits = r₀.waits ∧ r.rma = r₀.rma := by
  obtain ⟨c, hloop, hret⟩ := bind_eq_ok hpass
  cases hret
  have hzero : Follows cfg r₀ ins queues [] .idle r₀ := by
    refine ⟨.init rfl, ?_, hholds, fun t => by simp, rfl, rfl, .refl _⟩
    rw [← hidle, Function.update_eq_self]
  have hstart := hzero.goto (.pollStart hins hidle)
  obtain ⟨⟨r, hr⟩, hend⟩ := whileLoop_ok
    (I := fun c : PollCursor T =>
      Tracks cfg r₀ ins c.pass (.head c.queue (cfg.infos ins).last))
    (fun c c' hI hc hbody => by
      obtain ⟨r, hr⟩ := hI
      obtain ⟨s, hs, hret⟩ := bind_eq_ok hbody
      cases hret
      have henter := hr.goto (.pollEnter hins hr.at_poller (of_decide_eq_true hc))
      exact Tracks.pollQueue hins ⟨_, henter⟩ hs) ⟨_, hstart⟩ hloop
  have hdone := hr.goto (.pollEnd hins hr.at_poller (of_decide_eq_false hend))
  refine ⟨_, hdone.run, hdone.holds, hdone.events, hdone.unfinished, ?_, hdone.waits, hdone.rma⟩
  rw [hdone.poller, ← hidle, Function.update_eq_self]

/-- Two requests in queue 0; the other queues are not created. -/
def twoReported : Queues Unit
  | 0 => some [⟨none, .success⟩, ⟨some (), .success⟩]
  | _ => none

/-- GASPI holds a third request, which is not completed, and has completed the other two in the
other order. -/
theorem pass_run_two :
    ∃ (s : State Unit) (pass : PollPass Unit) (r : Runtime Unit),
      pollQueues 5 oneQueue.limits ⟨0, 1⟩ twoReported = .ok pass ∧ pass.queues 0 = some [] ∧
      Reach ((machine Unit oneQueue).after { fresh s with
        events := fun _ => 2
        requests := [⟨0, some (), true⟩, ⟨0, none, true⟩, ⟨0, some (), false⟩] })
        [.completed ()] r ∧ r.events () = 1 ∧
      (r.requests.filter (!·.completed)).Perm [⟨0, some (), false⟩] := by
  obtain ⟨pass, hpass, hdec, hqueues⟩ : ∃ pass : PollPass Unit,
      pollQueues 5 oneQueue.limits ⟨0, 1⟩ twoReported = .ok pass ∧ pass.decreased = [()] ∧
      pass.queues 0 = some [] := ⟨_, rfl, rfl, rfl⟩
  have hholds : Holds { fresh (State.fresh [] 0) with
      events := fun _ => 2
      requests := [⟨0, some (), true⟩, ⟨0, none, true⟩, ⟨0, some (), false⟩] } twoReported := by
    intro queue batch hq
    cases queue with
    | zero =>
      cases hq
      exact ⟨[⟨0, none, true⟩, ⟨0, some (), true⟩], .swap .., rfl⟩
    | succ queue => cases hq
  obtain ⟨r, hrun, -, hevents, hopen, -⟩ :=
    pass_run (show 0 < oneQueue.instances from Nat.one_pos) rfl hholds hpass
  rw [hdec] at hrun hevents
  exact ⟨_, pass, r, hpass, hqueues, hrun, hevents (), hopen⟩

end Runtime

end Tagaspi
