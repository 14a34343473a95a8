import Tagaspi.QueueGroups.Calls
import Tagaspi.SpinLock

/-!
# The table of queue groups under its spin lock

`QueueGroups.Table` takes and releases `queueGroupsLock` in one step each. Here the lock is the
ticket lock of `SpinLock.hpp`: a call that creates or deletes a group waits for its ticket, and
the `lock_guard` releases the lock after the call has done its work, while other threads
already see the work.

- `Counted`: the table and its count follow the calls that returned.
- `client`: the calls without the lock. A thread that holds the lock is in a call; the others
  cannot know.
- `table_over_lock`: over the ticket lock the calls do what they do in `QueueGroups.Table`.
-/

namespace Tagaspi

open Lts Containers

namespace Groups

/-! ## The table and its count -/

section Counted

variable {cfg : Limits} {topo : Topology} {h : HardwareInfo} {tr es : List Event} {s s' : State}

/-- The table has the groups that were created and not deleted, and the count is theirs. -/
structure Counted (tr : List Event) (s : State) : Prop where
  count : s.numQueueGroups = s.present.card
  entry_id : ∀ id, s.queueGroups id ≠ none → id < maxQueueGroups
  entry : ∀ id, (s.queueGroups id).isSome = (groupOf id tr).isSome
  creating : ∀ t id first num policy, s.call t = .creating id first num policy →
    id < maxQueueGroups
  deleting : ∀ t id, s.call t = .deleted id → s.queueGroups id ≠ none

/-- A step of thread `t` that leaves the table alone. -/
theorem Counted.goto (hk : Counted tr s) {t : Nat} {c : Call}
    (hgroups : s'.queueGroups = s.queueGroups)
    (hnum : s'.numQueueGroups = s.numQueueGroups) (hcall : s'.call = Function.update s.call t c)
    (hes : ∀ id, groupOf id (tr ++ es) = groupOf id tr)
    (hcreating : ∀ id first num policy, c = .creating id first num policy → id < maxQueueGroups)
    (hdeleting : ∀ id, c = .deleted id → s.queueGroups id ≠ none) : Counted (tr ++ es) s' where
  count := by
    unfold State.present
    rw [hnum, hgroups]
    exact hk.count
  entry_id id := by
    rw [hgroups]
    exact hk.entry_id id
  entry id := by
    rw [hgroups, hes]
    exact hk.entry id
  creating u id first num policy hc := by
    rw [hcall] at hc
    rcases update_cases hc with ⟨-, rfl⟩ | ⟨-, hc⟩
    · exact hcreating _ _ _ _ rfl
    · exact hk.creating _ _ _ _ _ hc
  deleting u id hc := by
    rw [hcall] at hc
    rw [hgroups]
    rcases update_cases hc with ⟨-, rfl⟩ | ⟨-, hc⟩
    · exact hdeleting _ rfl
    · exact hk.deleting _ _ hc

/-- A call that returns. -/
theorem Counted.back (hk : Counted tr s) {t : Nat} (hgroups : s'.queueGroups = s.queueGroups)
    (hnum : s'.numQueueGroups = s.numQueueGroups)
    (hcall : s'.call = Function.update s.call t .idle)
    (hes : ∀ id, groupOf id (tr ++ es) = groupOf id tr) : Counted (tr ++ es) s' :=
  hk.goto hgroups hnum hcall hes (fun _ _ _ _ hc => by cases hc) fun _ hc => by cases hc

theorem Counted.create (hk : Counted tr s) {t id first num : Nat} {policy : Policy}
    (hid : id < maxQueueGroups) (hnone : s.queueGroups id = none)
    (hgroups : s'.queueGroups = Function.update s.queueGroups id (some s.next))
    (hnum : s'.numQueueGroups = s.numQueueGroups + 1)
    (hcall : s'.call = Function.update s.call t .idle) :
    Counted (tr ++ [.created t id first num policy]) s' where
  count := by
    have hnot : id ∉ s.present := fun hmem => (mem_present.mp hmem).2 hnone
    rw [hnum, present_create hid hgroups, Finset.card_insert_of_notMem hnot, hk.count]
  entry_id id' hne := by
    rw [hgroups] at hne
    by_cases heq : id' = id
    · exact heq ▸ hid
    · exact hk.entry_id id' (by rwa [Function.update_of_ne heq] at hne)
  entry id' := by
    rw [hgroups, groupOf_append]
    by_cases heq : id' = id
    · subst heq
      rw [Function.update_self]
      simp [record]
    · rw [Function.update_of_ne heq, hk.entry id']
      simp [record, Ne.symm heq]
  creating u id' first num policy hc := by
    rw [hcall] at hc
    rcases update_cases hc with ⟨-, hc⟩ | ⟨-, hc⟩
    · cases hc
    · exact hk.creating _ _ _ _ _ hc
  deleting u id' hc := by
    rw [hcall] at hc
    rcases update_cases hc with ⟨-, hc⟩ | ⟨-, hc⟩
    · cases hc
    · rw [hgroups]
      by_cases heq : id' = id
      · subst heq
        simp
      · rw [Function.update_of_ne heq]
        exact hk.deleting _ _ hc

theorem Counted.delete (hk : Counted tr s) {t id : Nat} (hc : s.call t = .deleted id)
    (hothers : ∀ u, u ≠ t → (s.call u).locked = false)
    (hgroups : s'.queueGroups = Function.update s.queueGroups id none)
    (hnum : s'.numQueueGroups = predNumber s.numQueueGroups)
    (hcall : s'.call = Function.update s.call t .idle) : Counted (tr ++ [.deleted t id]) s' where
  count := by
    have hentry := hk.deleting _ _ hc
    have hmem : id ∈ s.present := mem_present.mpr ⟨hk.entry_id id hentry, hentry⟩
    obtain ⟨n, hn⟩ := Nat.exists_eq_succ_of_ne_zero (Finset.card_ne_zero_of_mem hmem)
    have hle : s.present.card ≤ maxQueueGroups := present_le
    rw [hnum, hk.count, present_delete hgroups, Finset.card_erase_of_mem hmem, hn, predNumber_succ]
    · rfl
    · exact Nat.lt_of_le_of_lt (hn ▸ hle) (by decide)
  entry_id id' hne := by
    rw [hgroups] at hne
    by_cases heq : id' = id
    · subst heq
      exact absurd (Function.update_self ..) hne
    · exact hk.entry_id id' (by rwa [Function.update_of_ne heq] at hne)
  entry id' := by
    rw [hgroups, groupOf_append]
    by_cases heq : id' = id
    · subst heq
      rw [Function.update_self]
      simp [record]
    · rw [Function.update_of_ne heq, hk.entry id']
      simp [record, Ne.symm heq]
  creating u id' first num policy hc' := by
    rw [hcall] at hc'
    rcases update_cases hc' with ⟨-, hc'⟩ | ⟨-, hc'⟩
    · cases hc'
    · exact hk.creating _ _ _ _ _ hc'
  deleting u id' hc' := by
    rw [hcall] at hc'
    rcases update_cases hc' with ⟨-, hc'⟩ | ⟨hu, hc'⟩
    · cases hc'
    · have := hothers u hu
      rw [hc'] at this
      cases this

theorem counted_step (hinv : Inv cfg h tr s) (hk : Counted tr s) (hs : Step cfg topo h s es s') :
    Counted (tr ++ es) s' := by
  have hnil : ∀ id, groupOf id (tr ++ []) = groupOf id tr := fun id => by rw [List.append_nil]
  cases hs with
  | createLock _ _ hid =>
    refine hk.goto rfl rfl rfl hnil (fun _ _ _ _ hc => ?_) fun _ hc => by cases hc
    cases hc
    exact hid
  | createFull | createExists | createInvalid | deleteMissing =>
    exact hk.back rfl rfl rfl fun id => groupOf_error ..
  | createDone hc _ hnone => exact hk.create (hk.creating _ _ _ _ _ hc) hnone rfl rfl rfl
  | deleteLock | getFound | getLoad =>
    exact hk.goto rfl rfl rfl hnil (fun _ _ _ _ hc => by cases hc) fun _ hc => by cases hc
  | deleteObject hc hp =>
    refine hk.goto rfl rfl rfl hnil (fun _ _ _ _ hc => by cases hc) fun _ hc => ?_
    cases hc
    simp [hp]
  | @deleteDone t id hc =>
    have hlock : s.lock = some t := (hinv.calls t).holder (by rw [hc]; rfl)
    exact hk.delete hc (fun u hu => hinv.unlocked (.inr hlock) hu) rfl rfl rfl
  | @getMissing t _ hc =>
    have hcall : s.call = Function.update s.call t .idle := by rw [← hc, Function.update_eq_self]
    exact hk.back rfl rfl hcall fun id => groupOf_error ..
  | getOnly | getSwap | getLost | getCPU => exact hk.back rfl rfl rfl fun id => groupOf_got ..

theorem counted_reach (hr : Reach (machine cfg topo h) tr s) : Counted tr s := by
  refine hr.invariant ?_ fun _ _ _ _ hr hk hs => counted_step (inv_reach hr) hk hs
  rintro _ rfl
  exact ⟨rfl, fun _ hne => absurd rfl hne, fun _ => rfl, fun _ _ _ _ _ hc => (by cases hc),
    fun _ _ hc => (by cases hc)⟩

end Counted

/-! ## Over the ticket lock -/

section Client

variable (cfg : Limits) (topo : Topology) (h : HardwareInfo)

/-- The thread that returns. -/
def Event.thread : Event → Nat
  | .created t .. | .deleted t _ | .got t .. | .error t _ => t

/-- The calls, with the lock to be supplied: `lock` names the thread in its critical section, and
no thread can read it. -/
def client : Client Nat State Event where
  init := (· = .initial)
  locked s t := s.lock = some t
  wants s t := s.call t = .idle
  enter t s es s' := Step cfg topo h { s with lock := none } es s' ∧ s'.lock = some t
  own t s es s' := Step cfg topo h s es s' ∧ (s'.lock = s.lock ∨ s'.lock = none) ∧
    (∀ u, u ≠ t → s'.call u = s.call u) ∧ ∀ e ∈ es, e.thread = t
  init_unlocked := by
    rintro _ t rfl ht
    cases ht
  enter_locked hs hu := .inl (Option.some.inj (hu.symm.trans hs.2))
  own_locked := by
    rintro s s' t u es ⟨-, hlock | hlock, -⟩ hu
    · exact hlock.symm.trans hu
    · cases hlock.symm.trans hu

variable {cfg topo h}

/-- If a critical section is entered when nobody is in one, the calls are those of
`QueueGroups.Table`. -/
theorem ideal_machine {tr : List Event} {s : State} (hr : Reach (client cfg topo h).ideal tr s) :
    Reach (machine cfg topo h) tr s := by
  refine hr.invariant (fun _ hi => .init hi) fun tr es s s' _ ih hs => ih.step ?_
  cases hs with
  | enter henter hnone =>
    have hlock : s.lock = none := Option.eq_none_iff_forall_ne_some.mpr fun u hu => hnone u hu
    have hsame : ({ s with lock := none } : State) = s := by rw [← hlock]
    have hs : Step cfg topo h { s with lock := none } es s' := henter.1
    rwa [hsame] at hs
  | own hown => exact hown.1

/-- **The table under the ticket lock.** Any number of threads call `tagaspi_queue_group_create`,
`_delete` and `_get_queue`, in any order and at any time, over a ticket lock that draws fewer
than `2 ^ 64` tickets. The calls are a run of the machine in which the lock is a variable. A
thread in the middle of `create` or `delete` holds the lock, so that there is one at a time;
and at every moment the table has an entry for the groups that were created and not deleted,
and the count is the number of entries. -/
theorem table_over_lock {size : Nat} [NeZero size] {tr : List (SpinLock.Event Nat ⊕ Event)}
    {c : SpinLock.State Nat size × State}
    (hr : Reach ((client cfg topo h).behind (SpinLock.lock Nat size)) tr c)
    (hfew : (SpinLock.drawn (lockTrace tr)).length < 2 ^ 64) :
    Reach (machine cfg topo h) (clientTrace tr) c.2 ∧
    (∀ t, (c.2.call t).locked = true → c.1.pc t = .holding ∧
      ∀ u, (c.2.call u).locked = true → u = t) ∧
    (∀ id, (c.2.queueGroups id).isSome = (groupOf id (clientTrace tr)).isSome) ∧
    c.2.numQueueGroups = c.2.present.card ∧ ∀ id, c.2.queueGroups id ≠ none → id ∈ c.2.present := by
  obtain ⟨hideal, hin⟩ := Client.refines SpinLock.excludes hr hfew
  have hmachine := ideal_machine hideal
  have hk := counted_reach hmachine
  have holder : ∀ {t}, (c.2.call t).locked = true → c.2.lock = some t := fun hl =>
    ((inv_reach hmachine).calls _).holder hl
  refine ⟨hmachine, fun t ht => ⟨SpinLock.phase_inside (hin t (holder ht)), fun u hu => ?_⟩,
    hk.entry, hk.count, fun id hne => mem_present.mpr ⟨hk.entry_id id hne, hne⟩⟩
  exact Option.some.inj ((holder hu).symm.trans (holder ht))

/-- Thread 0 creates a group. Before it calls `unlock`, thread 1 waits for the lock and thread 2
gets a queue of the group. -/
theorem table_over_lock_three :
    ∃ (tr : List (SpinLock.Event Nat ⊕ Event)) (c : SpinLock.State Nat 2 × State),
      Reach ((client ⟨8, 4, 8, 8⟩ sparseTopology .empty).behind (SpinLock.lock Nat 2)) tr c ∧
      c.1.pc 0 = .holding ∧ c.1.pc 1 = .spinning 1 ∧
      clientTrace tr = [.created 0 3 5 2 .default, .got 2 3 5] ∧
      Reach (machine ⟨8, 4, 8, 8⟩ sparseTopology .empty) (clientTrace tr) c.2 ∧
      (c.2.queueGroups 3).isSome = true := by
  have h₀ : Reach ((client ⟨8, 4, 8, 8⟩ sparseTopology .empty).behind (SpinLock.lock Nat 2)) []
      (.initial, .initial) := Reach.init ⟨rfl, rfl⟩
  have h₁ := SpinLock.over_draw h₀ (t := 0) rfl rfl
  have h₂ := SpinLock.over_draw h₁ (t := 1) rfl rfl
  have hlock : Step ⟨8, 4, 8, 8⟩ sparseTopology .empty { State.initial with lock := none } []
      { State.initial.goto 0 (.creating 3 5 2 .default) with lock := some 0 } :=
    .createLock rfl rfl (by decide) (by decide) (by decide)
  have h₃ := SpinLock.over_enter h₂ (t := 0) rfl rfl ⟨hlock, rfl⟩
  have hcreate : setupPolicy 8 0 .empty (fun _ => ⟨0, 0⟩) 5 2 .default = .ok (.counter 0) := rfl
  have hdone : Step ⟨8, 4, 8, 8⟩ sparseTopology .empty
      { State.initial.goto 0 (.creating 3 5 2 .default) with lock := some 0 }
      [.created 0 3 5 2 .default] _ := .createDone rfl (by decide) rfl rfl hcreate
  have h₄ := h₃.step (.own (t := 0) ⟨hdone, .inr rfl, fun u hu => Function.update_of_ne hu ..,
    by simp [Event.thread]⟩ (.inr ⟨rfl, rfl⟩))
  have h₅ := h₄.step (.own (t := 2) ⟨.getFound rfl (show 3 < maxQueueGroups by decide) rfl,
    .inl rfl, fun u hu => Function.update_of_ne hu .., by simp⟩ (.inl rfl))
  have h₆ := h₅.step (.own (t := 2) ⟨.getLoad rfl rfl rfl (by decide) rfl, .inl rfl,
    fun u hu => Function.update_of_ne hu .., by simp⟩ (.inl rfl))
  have h₇ := h₆.step (.own (t := 2) ⟨.getSwap rfl rfl rfl, .inl rfl,
    fun u hu => Function.update_of_ne hu .., by simp [Event.thread]⟩ (.inl rfl))
  obtain ⟨hmachine, -, hentry, -⟩ := table_over_lock h₇ (by decide)
  exact ⟨_, _, h₇, rfl, rfl, rfl, hmachine, hentry 3⟩

end Client

end Groups

end Tagaspi
