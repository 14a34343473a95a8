import Tagaspi.Lib.Liveness
import Tagaspi.Polling.Lifecycle

/-!
# Finalising comes to an end

`unregisterPolling` spins until the polling task has completed, once for every instance.
Here the finalising thread and the polling tasks are scheduled fairly and every call of a
polling function returns. Then `Environment::finalize` gets past `Polling::finalize`
(`finalize_returns`), however many polling functions are being executed when it is called.

- `Moves`: the finalising thread goes on, or a polling task does.
- `Main.remaining`, `Body.remaining`: what the thread has still to do, and a polling task that has
  been told to finish.
- `ToDo`: who has to move next, and how many moves are left.
-/

namespace Tagaspi

open Lts

namespace Lifecycle

/-- Who moves. -/
inductive Actor where
  /-- The finalising thread. -/
  | main
  /-- The polling task of an instance. -/
  | task (i : Nat)
deriving DecidableEq, Repr

/-- `Polling::finalize` was called and the environment is still there. -/
def Main.closing : Main → Bool
  | .finalizing _ | .unregister _ _ | .clear | .teardown => true
  | .registering _ _ | .registerNotifications | .ready | .freed => false

/-- The finalising thread goes on, or the task of an instance gets to another point of its
body. A step inside a polling function is none of these, but its return is. -/
def Moves (cfg : Limits) (n : Nat) : Actor → Action State Event
  | .main => fun s es s' => Step cfg n s es s' ∧ s.main.closing = true ∧ s'.main ≠ s.main
  | .task i => fun s es s' =>
    Step cfg n s es s' ∧ i < s.next ∧ (s'.instances i).body ≠ (s.instances i).body

def Unregister.remaining : Unregister → Nat
  | .set => 3
  | .read => 2
  | .delete => 1

/-- The moves that the finalising thread has still to make, at most. -/
def Main.remaining (n : Nat) : Main → Nat
  | .finalizing ins => 4 * (n - ins) + 6
  | .unregister (.queue ins) pc => 4 * (n - ins) + 2 + pc.remaining
  | .unregister .notifications pc => 2 + pc.remaining
  | .clear => 2
  | .teardown => 1
  | .registering _ _ | .registerNotifications | .ready | .freed => 0

/-- The moves that a polling task makes after `_mustFinish` was set, at most. -/
def Body.remaining : Body → Nat
  | .call => 5
  | .running => 4
  | .wait => 3
  | .test => 2
  | .left => 1
  | .completed => 0

/-- `ToDo n k a s`: `k` is left to do, and `a` makes the next move. -/
inductive ToDo (n : Nat) : Nat → Actor → State → Prop where
  | main {s : State} :
      s.main.closing = true →
      (∀ h, s.main = .unregister h .read → (s.instances (s.handle h)).body = .completed) →
      ToDo n (8 * s.main.remaining n) .main s
  /-- The thread reads `_finished` until the polling task has set it. -/
  | task {h : Handle} {s : State} :
      s.main = .unregister h .read → (s.instances (s.handle h)).body ≠ .completed →
      ToDo n (8 * s.main.remaining n + (s.instances (s.handle h)).body.remaining)
        (.task (s.handle h)) s

section Shutdown

variable {cfg : Limits} {n : Nat} {s s' : State} {es : List Event}

theorem toDo_exists (hm : s.main.closing = true) :
    ∃ k < 8 * s.main.remaining n + 8, ∃ a, ToDo n k a s := by
  by_cases hread : ∃ h, s.main = .unregister h .read ∧
      (s.instances (s.handle h)).body ≠ .completed
  · obtain ⟨h, hh, hbody⟩ := hread
    refine ⟨_, ?_, _, .task hh hbody⟩
    cases (s.instances (s.handle h)).body <;> simp only [Body.remaining] <;> omega
  · refine ⟨_, by omega, _, .main hm fun h hh => ?_⟩
    by_contra hbody
    exact hread ⟨h, hh, hbody⟩

/-! ## The flag -/

/-- The instance that the thread waits for has been told to finish. -/
def Marked (s : State) : Prop :=
  ∀ h pc, s.main = .unregister h pc → pc ≠ .set → (s.instances (s.handle h)).mustFinish = true

theorem Marked.modify (h : Marked s) {i : Nat} {f : PollingInstance → PollingInstance}
    (hf : (s.instances i).mustFinish = true → (f (s.instances i)).mustFinish = true) :
    Marked (s.modify i f) := by
  intro h' pc hm hpc
  have hold := h h' pc hm hpc
  show ((s.modify i f).instances (s.handle h')).mustFinish = true
  by_cases hi : s.handle h' = i
  · rw [hi, modify_self]
    rw [hi] at hold
    exact hf hold
  · rw [modify_of_ne f hi]
    exact hold

theorem marked_step (h : Marked s) (hs : Step cfg n s es s') : Marked s' := by
  cases hs with
  | @setMustFinish h₀ hm =>
    rintro h' pc hm' -
    obtain ⟨rfl, -⟩ := Main.unregister.inj hm'
    show ((s.modify (s.handle h₀) fun p => { p with mustFinish := true }).instances
      (s.handle h₀)).mustFinish = true
    rw [modify_self]
  | notFinished | poll => exact h
  | isFinished hm =>
    rintro h' pc hm' -
    obtain ⟨rfl, -⟩ := Main.unregister.inj hm'
    exact h _ _ hm (by simp)
  | finalizeQueue | finalizeEnd =>
    rintro h' pc hm' hpc
    obtain ⟨-, rfl⟩ := Main.unregister.inj hm'
    exact absurd rfl hpc
  | @delete h₀ hm =>
    intro h' pc hm'
    cases h₀ <;> cases hm'
  | registerQueue | registerNone | registerEnd | registerNotifications | finalize | finalizeNone
  | clear | teardown =>
    intro h' pc hm'
    cases hm'
  | testContinue | testLeave | call | pollReturn | waited | completed => exact h.modify id

theorem marked_reach {tr : List Event} (hr : Reach (machine cfg n) tr s) : Marked s := by
  refine Reach.invariant (I := fun _ s => Marked s) ?_ (fun _ _ _ _ _ h hs => marked_step h hs) hr
  intro s hs h' pc hm
  rw [hs.main] at hm
  cases hm

/-! ## What a step does -/

/-- A polling task moves on, or it does not. -/
def BodyStep (p p' : PollingInstance) : Prop :=
  p' = p ∨ p.body ≠ .completed ∧ p'.body ≠ p.body ∧
    (p.mustFinish = true → p'.body.remaining < p.body.remaining)

/-- **What a step does after `Polling::finalize` was called**: the thread moves and has less to
do, or it stays, and one polling task may move. -/
theorem Step.closing_cases (hs : Step cfg n s es s') (hinv : Inv n s)
    (hm : s.main.closing = true) :
    Event.teardown ∈ es ∨ (s'.main.closing = true ∧ s'.main.remaining n < s.main.remaining n) ∨
      (s'.main = s.main ∧ s'.handle = s.handle ∧ s'.next = s.next ∧
        ∀ i, BodyStep (s.instances i) (s'.instances i)) := by
  -- a polling task moves
  have htask : ∀ {i : Nat} {f : PollingInstance → PollingInstance},
      BodyStep (s.instances i) (f (s.instances i)) →
      (s.modify i f).main = s.main ∧ (s.modify i f).handle = s.handle ∧
        (s.modify i f).next = s.next ∧
        ∀ j, BodyStep (s.instances j) ((s.modify i f).instances j) := by
    intro i f hf
    refine ⟨rfl, rfl, rfl, fun j => ?_⟩
    by_cases hj : j = i
    · subst hj
      rw [modify_self]
      exact hf
    · rw [modify_of_ne f hj]
      exact .inl rfl
  cases hs with
  | registerQueue hm' | registerNone hm' | registerEnd hm' | registerNotifications hm'
  | finalize hm' =>
    rw [hm'] at hm
    cases hm
  | @finalizeNone ins hm' hins =>
    have hsize := hinv.size (by simp [hm']) (by simp [hm'])
    refine .inr (.inl ⟨rfl, ?_⟩)
    rw [hm']
    simp only [Main.remaining]
    omega
  | @finalizeQueue ins hm' hins =>
    refine .inr (.inl ⟨rfl, ?_⟩)
    rw [hm']
    simp only [Main.remaining, Unregister.remaining]
    omega
  | finalizeEnd hm' =>
    refine .inr (.inl ⟨rfl, ?_⟩)
    rw [hm']
    simp only [Main.remaining, Unregister.remaining]
    omega
  | @setMustFinish h hm' | @isFinished h hm' =>
    refine .inr (.inl ⟨rfl, ?_⟩)
    rw [hm']
    cases h <;> simp only [Main.remaining, Unregister.remaining] <;> omega
  | @delete h hm' =>
    refine .inr (.inl ⟨by cases h <;> rfl, ?_⟩)
    rw [hm']
    cases h with
    | queue ins =>
      have hlt := (hinv.target ins _ hm').2
      simp only [Handle.after, Main.remaining, Unregister.remaining]
      omega
    | notifications => simp only [Handle.after, Main.remaining, Unregister.remaining]; omega
  | clear hm' =>
    refine .inr (.inl ⟨rfl, ?_⟩)
    rw [hm']
    simp only [Main.remaining]
    omega
  | teardown => exact .inl (List.mem_singleton.mpr rfl)
  | notFinished | poll => exact .inr (.inr ⟨rfl, rfl, rfl, fun _ => .inl rfl⟩)
  | testContinue hi hb hf =>
    refine .inr (.inr (htask (.inr ?_)))
    simp [hb, hf]
  | testLeave hi hb | call hi hb | pollReturn hi hb | waited hi hb | completed hi hb =>
    refine .inr (.inr (htask (.inr ?_)))
    simp [hb, Body.remaining]

/-- Whoever has to move next can move. -/
theorem ToDo.enabled (hinv : Inv n s) (hmark : Marked s) {k : Nat} {a : Actor}
    (h : ToDo n k a s) : Enabled (Moves cfg n a) s := by
  cases h with
  | main hm hread =>
    cases hmain : s.main with
    | registering | registerNotifications | ready | freed =>
      rw [hmain] at hm
      cases hm
    | finalizing ins =>
      by_cases hins : ins < s.size
      · by_cases hq : (s.infos ins).numQueues = 0
        · exact ⟨_, _, .finalizeNone hmain hins hq, hm, by simp [hmain]⟩
        · exact ⟨_, _, .finalizeQueue hmain hins hq, hm, by simp [hmain]⟩
      · exact ⟨_, _, .finalizeEnd hmain hins, hm, by simp [hmain]⟩
    | unregister h pc =>
      cases pc with
      | set => exact ⟨_, _, .setMustFinish hmain, hm, by simp [hmain]⟩
      | read =>
        have hfin := (hinv.flag _ (hinv.handle_exists hmain).1).mpr (hread h hmain)
        exact ⟨_, _, .isFinished hmain hfin, hm, by simp [hmain]⟩
      | delete => exact ⟨_, _, .delete hmain, hm, by cases h <;> simp [hmain, Handle.after]⟩
    | clear => exact ⟨_, _, .clear hmain, hm, by simp [hmain]⟩
    | teardown => exact ⟨_, _, .teardown hmain, hm, by simp [hmain]⟩
  | @task h _ hmain hbody =>
    have hi := (hinv.handle_exists hmain).1
    have hmust := hmark h _ hmain (by simp)
    cases hb : (s.instances (s.handle h)).body with
    | test => exact ⟨_, _, .testLeave hi hb hmust, hi, by simp [hb]⟩
    | call => exact ⟨_, _, .call hi hb, hi, by simp [hb]⟩
    | running => exact ⟨_, _, .pollReturn hi hb, hi, by simp [hb]⟩
    | wait => exact ⟨_, _, .waited hi hb, hi, by simp [hb]⟩
    | left => exact ⟨_, _, .completed hi hb, hi, by simp [hb]⟩
    | completed => exact absurd hb hbody

/-- A step brings the end nearer, or whoever has to move next has not moved. -/
theorem toDo_step (hinv : Inv n s) (hmark : Marked s) {k : Nat} {a : Actor} (h : ToDo n k a s)
    (hs : Step cfg n s es s') :
    Event.teardown ∈ es ∨ (∃ k' < k, ∃ a', ToDo n k' a' s') ∨
      (ToDo n k a s' ∧ ¬ Moves cfg n a s es s') := by
  have hm : s.main.closing = true := by
    cases h with
    | main hm => exact hm
    | task hmain => rw [hmain]; rfl
  rcases hs.closing_cases hinv hm with htear | ⟨hm', hlt⟩ | ⟨hsame, hhandle, hnext, hbodies⟩
  · exact .inl htear
  · -- the thread has moved
    obtain ⟨k', hk', a', h'⟩ := toDo_exists (n := n) hm'
    refine .inr (.inl ⟨k', ?_, a', h'⟩)
    cases h with
    | main => omega
    | task => omega
  · cases h with
    | main _ hread =>
      refine .inr (.inr ⟨?_, fun hmove => hmove.2.2 hsame⟩)
      rw [← hsame]
      refine .main (hsame ▸ hm) fun h hmain => ?_
      rw [hsame] at hmain
      have hdone := hread h hmain
      rw [hhandle]
      rcases hbodies (s.handle h) with hp | ⟨hp, -⟩
      · rw [hp]
        exact hdone
      · exact absurd hdone hp
    | @task h _ hmain hbody =>
      have hmain' : s'.main = .unregister h .read := hsame.trans hmain
      rcases hbodies (s.handle h) with hp | ⟨-, hne, hleft⟩
      · refine .inr (.inr ⟨?_, fun hmove => hmove.2.2 (by rw [hp])⟩)
        have hbody' : (s'.instances (s'.handle h)).body ≠ .completed := by
          rw [hhandle, hp]
          exact hbody
        have htodo := ToDo.task (n := n) hmain' hbody'
        rw [hsame, hhandle, hp] at htodo
        exact htodo
      · -- the polling task has moved
        have hless := hleft (hmark h _ hmain (by simp))
        refine .inr (.inl ?_)
        by_cases hdone : (s'.instances (s'.handle h)).body = .completed
        · refine ⟨8 * s'.main.remaining n, ?_, _, .main (hsame ▸ hm) fun h' hm' => ?_⟩
          · rw [hsame]
            omega
          · obtain ⟨rfl, -⟩ := Main.unregister.inj (hmain'.symm.trans hm')
            exact hdone
        · refine ⟨_, ?_, _, .task hmain' hdone⟩
          rw [hsame, hhandle]
          omega

/-- The end comes nearer. -/
theorem ranking (cfg : Limits) (n : Nat) :
    Ranking (machine cfg n) (Moves cfg n) (fun _ s => Inv n s ∧ Marked s)
      (fun es _ => Event.teardown ∈ es) (ToDo n) where
  isStep a s es s' h := by
    cases a with
    | main => exact h.1
    | task i => exact h.1
  enabled _ _ _ _ hI h := h.enabled hI.1 hI.2
  step _ _ _ _ _ _ hI _ h hs := toDo_step hI.1 hI.2 h hs

/-- **`Polling::finalize` returns**: if the finalising thread and every polling task go on
whenever they can, and the calls of the polling functions return, then after
`Polling::finalize` was called the environment is freed in the end, whatever the polling tasks
were doing. -/
theorem finalize_returns (cfg : Limits) (n : Nat) (e : Execution (machine cfg n))
    (hfair : ∀ a, e.WeaklyFair (Moves cfg n a)) {m : Nat}
    (hm : (e.state m).main.closing = true) : ∃ p, m ≤ p ∧ Event.teardown ∈ e.events p := by
  obtain ⟨k, -, a, h⟩ := toDo_exists (n := n) hm
  exact (ranking cfg n).reached e hfair
    (fun p _ => ⟨inv_reach (e.reach p), marked_reach (e.reach p)⟩) h

/-- Nobody moves any more. -/
theorem not_moves (hm : s.main = .freed) (hdone : ∀ i < s.next, (s.instances i).body = .completed)
    (a : Actor) : ¬ Enabled (Moves cfg n a) s := by
  rintro ⟨es, s', hmove⟩
  cases a with
  | main =>
    obtain ⟨-, hclosing, -⟩ := hmove
    rw [hm] at hclosing
    cases hclosing
  | task i =>
    obtain ⟨hs, hi, hne⟩ := hmove
    have hbody : ∀ {j b}, j < s.next → (s.instances j).body = b → b = .completed :=
      fun hj hb => hb.symm.trans (hdone _ hj)
    cases hs with
    | notFinished | poll => exact hne rfl
    | registerQueue hm' | registerNone hm' | registerEnd hm' | registerNotifications hm'
    | finalize hm' | finalizeNone hm' | finalizeQueue hm' | finalizeEnd hm' | setMustFinish hm'
    | isFinished hm' | delete hm' | clear hm' | teardown hm' =>
      rw [hm] at hm'
      cases hm'
    | testContinue hj hb | testLeave hj hb | call hj hb | pollReturn hj hb | waited hj hb
    | completed hj hb => exact Body.noConfusion (hbody hj hb)

end Shutdown

/-- One queue and one checker, and the notifications poller is in its polling function when
`Polling::finalize` is called: in the execution that goes on with the moves that are left, the
environment is freed. -/
theorem finalize_returns_polling :
    ∃ (e : Execution (machine ⟨1, 1, 8, 8⟩ 1)) (m p : Nat), (e.state m).main = .finalizing 0 ∧
      ((e.state m).instances 1).body = .running ∧ m ≤ p ∧ Event.teardown ∈ e.events p := by
  obtain ⟨tr, s, es, s', hr, hmain, hbody, -, -, hlater, hfreed, -, -⟩ := one_checker
  have hinv := inv_reach (hr.trans hlater)
  have hdone := fun i hi => hinv.gone i hi (hinv.all_deleted (.inr (.inr hfreed)) hi)
  obtain ⟨e, m, N, -, -, hstate, hend, -⟩ := hr.execution_through hlater
  obtain ⟨p, hp, htear⟩ := finalize_returns ⟨1, 1, 8, 8⟩ 1 e
    (fun a => hend.weaklyFair (not_moves hfreed hdone a)) (m := m) (by rw [hstate, hmain]; rfl)
  exact ⟨e, m, p, hstate ▸ hmain, hstate ▸ hbody, hp, htear⟩

end Lifecycle

end Tagaspi
