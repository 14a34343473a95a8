import Mathlib.Algebra.BigOperators.Intervals
import Mathlib.Algebra.Order.BigOperators.Group.Finset
import Tagaspi.Polling.Queues
import Tagaspi.Runtime.Model

/-!
# One pass of a queue poller

`Polling::pollQueues` goes through the queues of its instance and asks GASPI for the
completed requests of each, in batches, until a batch is not full. For each request
with a tag it gives an event back to the task.

- `pollBatch`, `pollQueue`, `pollQueues`: the pass, on what GASPI holds in each queue.
- `pollBatch_spec`, `pollQueue_spec`: one batch, and one queue, which is left empty.
- `poll_handles_all`: the pass ends, and every request of the queues of the instance
  is handled once.
-/

namespace Tagaspi

open Loops

/-- A completed request, as `gaspi_request_wait` reports it. Without a task the tag is
`GASPI_TAG_NULL`. -/
structure Completion (T : Type) where
  tag : Option T
  /-- `statuses[r].error`. -/
  status : Ret
deriving DecidableEq, Repr

/-- The completed requests in each queue; `none` if the queue is not created. -/
abbrev Queues (T : Type) := Nat → Option (List (Completion T))

/-- The state of a pass. -/
structure PollPass (T : Type) where
  queues : Queues T
  /-- The tasks of the calls of `decreaseTaskEvents(task, 1)`, in order. -/
  decreased : List T
  completedReqs : Nat

section Code

variable {T : Type}

/-- The body of the loop over a batch. -/
def handleRequest (batch : List (Completion T)) (r : Nat) (decreased : List T) :
    Except Fault (List T) := do
  let request ← fetch batch r
  if request.status ≠ .success then .error .aborted
  else
    match request.tag with
    | some task => .ok (decreased ++ [task])
    | none => .ok decreased

/-- The body of the `do` loop. `gaspi_request_wait` takes at most `BatchSize` requests; on
a queue that is not created it returns `GASPI_ERR_INV_QUEUE`, and `continue` goes to the
test of the loop. -/
def pollBatch (queue : Nat) (s : PollPass T) : Except Fault (PollPass T) :=
  match s.queues queue with
  | none => .ok { s with completedReqs := 0 }
  | some requests => do
    let batch := requests.take batchSize
    let decreased ← forRange 0 batch.length (handleRequest batch) s.decreased
    .ok { queues := Function.update s.queues queue (some (requests.drop batchSize))
          decreased := decreased
          completedReqs := batch.length }

/-- One turn of the loop over the queues. -/
def pollQueue (fuel queue : Nat) (s : PollPass T) : Except Fault (PollPass T) :=
  doWhile (fun s => decide (s.completedReqs = batchSize)) (pollBatch queue) fuel s

/-- The variables of the loop over the queues. -/
structure PollCursor (T : Type) where
  queue : Nat
  pass : PollPass T

def pollNext (cfg : Limits) (fuel : Nat) (c : PollCursor T) : Except Fault (PollCursor T) := do
  let pass ← pollQueue fuel c.queue c.pass
  .ok ⟨(c.queue + 1) % 2 ^ cfg.queueBits, pass⟩

/-- `Polling::pollQueues`; the period that it returns is left out. -/
def pollQueues (fuel : Nat) (cfg : Limits) (info : PollingInfo) (queues : Queues T) :
    Except Fault (PollPass T) := do
  let c ← whileLoop (fun c => decide (c.queue < info.last)) (pollNext cfg fuel) fuel
    ⟨info.firstQueue, ⟨queues, [], 0⟩⟩
  .ok c.pass

end Code

section Spec

variable {T : Type}

/-- The tasks behind some requests. -/
def tasks (requests : List (Completion T)) : List T := requests.filterMap (·.tag)

/-- Every request has succeeded. -/
def AllSucceed (requests : List (Completion T)) : Prop := ∀ q ∈ requests, q.status = .success

/-- Every request of every queue has succeeded. -/
def QueuesSucceed (queues : Queues T) : Prop :=
  ∀ queue requests, queues queue = some requests → AllSucceed requests

/-! ## One batch -/

theorem handleRequest_ok {batch : List (Completion T)} (hok : AllSucceed batch) {r : Nat}
    (hr : r < batch.length) (before : List T) :
    handleRequest batch r (before ++ tasks (batch.take r)) =
      .ok (before ++ tasks (batch.take (r + 1))) := by
  have hget := List.getElem?_eq_getElem hr
  have hsucc : batch[r].status = .success := hok _ (List.getElem_mem hr)
  have htake : tasks (batch.take (r + 1)) = tasks (batch.take r) ++ tasks [batch[r]] := by
    unfold tasks
    rw [List.take_add_one, hget, List.filterMap_append]
    rfl
  unfold handleRequest
  rw [fetch_ok hget, ok_bind, if_neg (not_not.mpr hsucc), htake]
  cases htag : batch[r].tag with
  | none =>
    have : tasks [batch[r]] = [] := by simp [tasks, htag]
    rw [this, List.append_nil]
  | some task =>
    have : tasks [batch[r]] = [task] := by simp [tasks, htag]
    rw [this, ← List.append_assoc]

/-- The loop over a batch gives one event back for each request with a tag. -/
theorem handleBatch_ok {batch : List (Completion T)} (hok : AllSucceed batch) (before : List T) :
    forRange 0 batch.length (handleRequest batch) before = .ok (before ++ tasks batch) := by
  obtain ⟨s, hrun, hs⟩ := forRange_total
    (I := fun r decreased => decreased = before ++ tasks (batch.take r))
    (Nat.zero_le batch.length) (List.append_nil before).symm fun r s _ hr hI => by
      subst hI
      exact ⟨_, handleRequest_ok hok hr before, rfl⟩
  rw [hrun, hs, List.take_length]

/-- **One batch** of a queue that is created. -/
theorem pollBatch_created {queue : Nat} {s : PollPass T} {requests : List (Completion T)}
    (hq : s.queues queue = some requests) (hok : AllSucceed requests) :
    pollBatch queue s = .ok
      { queues := Function.update s.queues queue (some (requests.drop batchSize))
        decreased := s.decreased ++ tasks (requests.take batchSize)
        completedReqs := (requests.take batchSize).length } := by
  unfold pollBatch
  rw [hq]
  simp only
  rw [handleBatch_ok (fun q hmem => hok q (List.mem_of_mem_take hmem)), ok_bind]

/-! ## One queue -/

/-- What is left of `requests` after some batches. -/
structure Draining (queue : Nat) (start : PollPass T) (requests : List (Completion T))
    (s : PollPass T) : Prop where
  rest : ∃ handled rest, requests = handled ++ rest ∧
    s.queues = Function.update start.queues queue (some rest) ∧
    s.decreased = start.decreased ++ tasks handled ∧
    (s.completedReqs ≠ batchSize → rest = [])

theorem draining_batch {queue : Nat} {start s : PollPass T}
    {requests handled rest : List (Completion T)} (hok : AllSucceed requests)
    (hsplit : requests = handled ++ rest)
    (hqueues : Function.update s.queues queue (some rest) = s.queues)
    (hstart : ∀ q, Function.update s.queues queue q = Function.update start.queues queue q)
    (hdec : s.decreased = start.decreased ++ tasks handled) :
    ∃ s', pollBatch queue s = .ok s' ∧ Draining queue start requests s' ∧
      s'.queues queue = some (rest.drop batchSize) ∧
      s'.completedReqs = (rest.take batchSize).length := by
  have hq : s.queues queue = some rest := by rw [← hqueues, Function.update_self]
  have hrest : AllSucceed rest := fun q hmem =>
    hok q (by rw [hsplit]; exact List.mem_append_right _ hmem)
  refine ⟨_, pollBatch_created hq hrest, ⟨handled ++ rest.take batchSize, rest.drop batchSize,
    ?_, hstart _, ?_, fun hne => ?_⟩, Function.update_self .., rfl⟩
  · rw [List.append_assoc, List.take_append_drop, hsplit]
  · show s.decreased ++ _ = _
    rw [hdec]
    unfold tasks
    rw [List.filterMap_append, List.append_assoc]
  · -- a batch that is not full has taken everything
    have hne' : (rest.take batchSize).length ≠ batchSize := hne
    rw [List.length_take] at hne'
    exact List.drop_of_length_le (by omega)

/-- **One queue**: all its requests are handled. -/
theorem pollQueue_created {fuel queue : Nat} {s : PollPass T} {requests : List (Completion T)}
    (hq : s.queues queue = some requests) (hok : AllSucceed requests)
    (hfuel : requests.length < fuel) :
    ∃ s', pollQueue fuel queue s = .ok s' ∧
      s'.queues = Function.update s.queues queue (some []) ∧
      s'.decreased = s.decreased ++ tasks requests := by
  have hnone : s.decreased = s.decreased ++ tasks [] := (List.append_nil _).symm
  obtain ⟨s₁, hrun₁, hs₁, hq₁, hn₁⟩ := draining_batch hok (List.nil_append requests).symm
    (by rw [← hq, Function.update_eq_self]) (fun _ => rfl) hnone
  have hstep : ∀ t : PollPass T, Draining queue s requests t →
      decide (t.completedReqs = batchSize) = true →
      ∃ t', pollBatch queue t = .ok t' ∧ Draining queue s requests t' ∧
        ((t'.queues queue).getD []).length + (if t'.completedReqs = batchSize then 1 else 0) <
          ((t.queues queue).getD []).length + if t.completedReqs = batchSize then 1 else 0 := by
    intro t ht hc
    obtain ⟨handled, rest, hsplit, hqueues, hdec, -⟩ := ht.rest
    have hupd : ∀ q, Function.update t.queues queue q = Function.update s.queues queue q := by
      intro q
      rw [hqueues, Function.update_idem]
    obtain ⟨t', hrun, ht', hq', hn'⟩ := draining_batch hok hsplit
      ((hupd _).trans hqueues.symm) hupd hdec
    have hqt : t.queues queue = some rest := by rw [hqueues, Function.update_self]
    refine ⟨t', hrun, ht', ?_⟩
    rw [hq', hqt, hn', if_pos (of_decide_eq_true hc), Option.getD_some, Option.getD_some,
      List.length_drop, List.length_take]
    have hpos : 0 < batchSize := by decide
    split <;> omega
  obtain ⟨s', hrun, hs', hend⟩ := whileLoop_total
    (fun t : PollPass T => ((t.queues queue).getD []).length +
      if t.completedReqs = batchSize then 1 else 0) hstep fuel s₁ hs₁ (by
        rw [hq₁, hn₁, Option.getD_some, List.length_drop]
        split <;> omega)
  obtain ⟨handled, rest, hsplit, hqueues, hdec, hempty⟩ := hs'.rest
  have hnil : rest = [] := hempty (of_decide_eq_false hend)
  subst hnil
  refine ⟨s', ?_, hqueues, ?_⟩
  · unfold pollQueue doWhile
    rw [hrun₁, ok_bind, hrun]
  · rw [hdec, hsplit, List.append_nil]

/-- A queue that is not created is left alone. -/
theorem pollQueue_missing {fuel queue : Nat} {s : PollPass T} (hq : s.queues queue = none) :
    pollQueue fuel queue s = .ok { s with completedReqs := 0 } := by
  unfold pollQueue doWhile pollBatch
  rw [hq]
  simp only [ok_bind]
  have hend : decide ((0 : Nat) = batchSize) = false := by decide
  cases fuel with
  | zero => rw [whileLoop, hend]; rfl
  | succ fuel => rw [whileLoop, hend]; rfl

/-- What a pass leaves in a queue. -/
def emptied : Option (List (Completion T)) → Option (List (Completion T))
  | none => none
  | some _ => some []

/-- The requests of a queue. -/
def pending (requests : Option (List (Completion T))) : List (Completion T) := requests.getD []

/-- **One turn of the loop over the queues.** -/
theorem pollQueue_spec {fuel queue : Nat} {s : PollPass T} (hok : QueuesSucceed s.queues)
    (hfuel : (pending (s.queues queue)).length < fuel) :
    ∃ s', pollQueue fuel queue s = .ok s' ∧
      s'.queues = Function.update s.queues queue (emptied (s.queues queue)) ∧
      s'.decreased = s.decreased ++ tasks (pending (s.queues queue)) := by
  cases hq : s.queues queue with
  | none =>
    refine ⟨_, pollQueue_missing hq, ?_, (List.append_nil _).symm⟩
    show s.queues = Function.update s.queues queue none
    rw [← hq, Function.update_eq_self]
  | some requests =>
    rw [hq] at hfuel
    exact pollQueue_created hq (hok queue requests hq) hfuel

/-! ## The whole pass -/

/-- The pass has come to queue `c.queue`. -/
structure Passing (info : PollingInfo) (queues : Queues T) (c : PollCursor T) : Prop where
  first : info.firstQueue ≤ c.queue
  last : c.queue ≤ info.firstQueue + info.numQueues
  queues_eq : c.pass.queues = fun q =>
    if info.firstQueue ≤ q ∧ q < c.queue then emptied (queues q) else queues q
  decreased : c.pass.decreased = (List.range' info.firstQueue (c.queue - info.firstQueue)).flatMap
    fun q => tasks (pending (queues q))

theorem passing_step {cfg : Limits} {info : PollingInfo} {queues : Queues T} {fuel : Nat}
    {c : PollCursor T} (hid : info.firstQueue + info.numQueues < 2 ^ cfg.queueBits)
    (hok : QueuesSucceed queues) (hfuel : ∀ q, info.firstQueue ≤ q →
      q < info.firstQueue + info.numQueues → (pending (queues q)).length < fuel)
    (hc : Passing info queues c) (hlt : c.queue < info.firstQueue + info.numQueues) :
    ∃ c', pollNext cfg fuel c = .ok c' ∧ Passing info queues c' ∧ c'.queue = c.queue + 1 := by
  have hfirst := hc.first
  have hsame : c.pass.queues c.queue = queues c.queue := by
    rw [hc.queues_eq]
    exact if_neg fun hcond => Nat.lt_irrefl _ hcond.2
  have hok' : QueuesSucceed c.pass.queues := by
    intro q requests hq
    rw [hc.queues_eq] at hq
    simp only at hq
    split at hq
    · -- an emptied queue holds nothing
      cases hqq : queues q with
      | none => rw [hqq] at hq; cases hq
      | some l =>
        rw [hqq] at hq
        cases hq
        intro x hx
        cases hx
    · exact hok q requests hq
  obtain ⟨pass, hrun, hqueues, hdec⟩ := pollQueue_spec hok'
    (by rw [hsame]; exact hfuel c.queue hfirst hlt)
  have hnext : (c.queue + 1) % 2 ^ cfg.queueBits = c.queue + 1 := Nat.mod_eq_of_lt (by omega)
  refine ⟨⟨c.queue + 1, pass⟩, ?_, ⟨Nat.le_succ_of_le hfirst, hlt, ?_, ?_⟩, rfl⟩
  · unfold pollNext
    rw [hrun, ok_bind, hnext]
  · show pass.queues = _
    rw [hqueues, hsame, hc.queues_eq]
    funext q
    by_cases hq : q = c.queue
    · subst hq
      rw [Function.update_self, if_pos ⟨hfirst, Nat.lt_succ_self _⟩]
    · rw [Function.update_of_ne hq]
      refine if_congr (and_congr_right fun _ => ?_) rfl rfl
      show q < c.queue ↔ q < c.queue + 1
      omega
  · show pass.decreased = _
    rw [hdec, hsame, hc.decreased, Nat.succ_sub hfirst, List.range'_concat, List.flatMap_append]
    rw [Nat.one_mul, Nat.add_sub_cancel' hfirst, List.flatMap_singleton]

/-- The number of requests tagged with `t` in the queues that are polled. -/
def tagged [DecidableEq T] (info : PollingInfo) (queues : Queues T) (t : T) : Nat :=
  ∑ q ∈ Finset.Ico info.firstQueue (info.firstQueue + info.numQueues),
    (pending (queues q)).countP fun request => decide (request.tag = some t)

theorem count_tasks [DecidableEq T] (requests : List (Completion T)) (t : T) :
    (tasks requests).count t = requests.countP fun request => decide (request.tag = some t) := by
  unfold tasks
  induction requests with
  | nil => rfl
  | cons request rest ih =>
    rw [List.filterMap_cons, List.countP_cons]
    cases htag : request.tag with
    | none => simp [ih]
    | some u =>
      rw [List.count_cons, ih]
      simp

theorem count_pass [DecidableEq T] (queues : Queues T) (t : T) (first n : Nat) :
    ((List.range' first n).flatMap fun q => tasks (pending (queues q))).count t =
      ∑ q ∈ Finset.Ico first (first + n),
        (pending (queues q)).countP fun request => decide (request.tag = some t) := by
  induction n with
  | zero => simp
  | succ n ih =>
    rw [List.range'_concat, List.flatMap_append, List.count_append, ih, Nat.one_mul,
      List.flatMap_singleton, count_tasks, ← Nat.add_assoc,
      Finset.sum_Ico_succ_top (Nat.le_add_right first n)]

/-- **A pass handles every completed request once, and ends.** If all requests have
succeeded, the pass empties the queues of its instance that are created, leaves all other
queues as they are, and gives each task as many events back as there were requests with
its tag. -/
theorem poll_handles_all [DecidableEq T] (cfg : Limits) (info : PollingInfo) (queues : Queues T)
    (hmax : cfg.maxQueues < 2 ^ numberBits) (hid : cfg.maxQueues < 2 ^ cfg.queueBits)
    (hrange : info.firstQueue + info.numQueues ≤ cfg.maxQueues) (hok : QueuesSucceed queues) :
    ∃ enough, ∀ fuel, enough ≤ fuel → ∃ pass, pollQueues fuel cfg info queues = .ok pass ∧
      (∀ q, info.firstQueue ≤ q → q < info.firstQueue + info.numQueues →
        pass.queues q = (queues q).map fun _ => []) ∧
      (∀ q, ¬ (info.firstQueue ≤ q ∧ q < info.firstQueue + info.numQueues) →
        pass.queues q = queues q) ∧
      ∀ t, pass.decreased.count t = tagged info queues t := by
  have hlast : info.last = info.firstQueue + info.numQueues := Nat.mod_eq_of_lt (by omega)
  refine ⟨info.numQueues + ∑ q ∈ Finset.Ico info.firstQueue (info.firstQueue + info.numQueues),
    ((pending (queues q)).length + 1), fun fuel hfuel => ?_⟩
  have hlen : ∀ q, info.firstQueue ≤ q → q < info.firstQueue + info.numQueues →
      (pending (queues q)).length < fuel := by
    intro q h₁ h₂
    have := Finset.single_le_sum (f := fun q => (pending (queues q)).length + 1)
      (fun _ _ => Nat.zero_le _) (Finset.mem_Ico.mpr ⟨h₁, h₂⟩)
    omega
  have hstep : ∀ c : PollCursor T, Passing info queues c → decide (c.queue < info.last) = true →
      ∃ c', pollNext cfg fuel c = .ok c' ∧ Passing info queues c' ∧
        info.firstQueue + info.numQueues - c'.queue <
          info.firstQueue + info.numQueues - c.queue := by
    intro c hc hcond
    have hlt := of_decide_eq_true hcond
    rw [hlast] at hlt
    obtain ⟨c', hrun, hc', hnext⟩ := passing_step (Nat.lt_of_le_of_lt hrange hid) hok hlen hc hlt
    exact ⟨c', hrun, hc', by omega⟩
  have hstart : Passing info queues ⟨info.firstQueue, ⟨queues, [], 0⟩⟩ := by
    refine ⟨Nat.le_refl _, Nat.le_add_right _ _, ?_, ?_⟩
    · funext q
      exact (if_neg fun hc => Nat.not_lt_of_le hc.1 hc.2).symm
    · rw [Nat.sub_self]
      rfl
  obtain ⟨c, hrun, hc, hend⟩ := whileLoop_total
    (fun c : PollCursor T => info.firstQueue + info.numQueues - c.queue) hstep fuel
    ⟨info.firstQueue, ⟨queues, [], 0⟩⟩ hstart (by
      rw [Nat.add_sub_cancel_left]
      exact (Nat.le_add_right _ _).trans hfuel)
  have hqueue : c.queue = info.firstQueue + info.numQueues := by
    have := of_decide_eq_false hend
    rw [hlast] at this
    exact Nat.le_antisymm hc.last (Nat.le_of_not_lt this)
  refine ⟨c.pass, ?_, fun q h₁ h₂ => ?_, fun q hq => ?_, fun t => ?_⟩
  · unfold pollQueues
    rw [hrun, ok_bind]
  · rw [hc.queues_eq, hqueue]
    simp only [h₁, h₂, and_self, if_true]
    cases queues q <;> rfl
  · rw [hc.queues_eq, hqueue]
    exact if_neg hq
  · rw [hc.decreased, hqueue, Nat.add_sub_cancel_left, count_pass]
    rfl

/-- Two tasks; queue 1 holds 64 requests of task 7 and one without a task, queue 2 is not
created, queue 3 is not polled. -/
def fullBatch : Queues Nat
  | 1 => some (List.replicate 64 ⟨some 7, .success⟩ ++ [⟨none, .success⟩])
  | 2 => none
  | _ => some [⟨some 8, .success⟩]

theorem fullBatch_succeeds : QueuesSucceed fullBatch := by
  intro queue requests hq request hmem
  unfold fullBatch at hq
  split at hq <;> cases hq
  · rcases List.mem_append.mp hmem with hmem | hmem
    · rw [List.eq_of_mem_replicate hmem]
    · rw [List.mem_singleton.mp hmem]
  · rw [List.mem_singleton.mp hmem]

theorem poll_handles_all_full :
    ∃ enough, ∀ fuel, enough ≤ fuel → ∃ pass,
      pollQueues fuel ⟨8, 1, 8, 8⟩ ⟨1, 2⟩ fullBatch = .ok pass ∧ pass.queues 1 = some [] ∧
      pass.queues 2 = none ∧ pass.queues 3 = fullBatch 3 ∧ pass.decreased.count 7 = 64 ∧
      pass.decreased.count 8 = 0 := by
  obtain ⟨enough, h⟩ := poll_handles_all ⟨8, 1, 8, 8⟩ ⟨1, 2⟩ fullBatch (by decide) (by decide)
    (by decide) fullBatch_succeeds
  refine ⟨enough, fun fuel hfuel => ?_⟩
  obtain ⟨pass, hrun, hin, hout, hcount⟩ := h fuel hfuel
  exact ⟨pass, hrun, hin 1 (by decide) (by decide), hin 2 (by decide) (by decide),
    hout 3 (by decide), (hcount 7).trans (by decide), (hcount 8).trans (by decide)⟩

end Spec

end Tagaspi
