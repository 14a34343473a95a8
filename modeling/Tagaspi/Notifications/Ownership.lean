import Tagaspi.Lib.Containers
import Tagaspi.Notifications.Model

/-!
# Who owns a waiting range

A pool slot travels from the allocator's free queue through the hands of a
caller, the queue of its segment, the list of its segment and the poller's
`completeRanges` back to the free queue. `State.holds` names these places;
`Owned` is the invariant of the whole journey:

- the places partition the pool (`parts`), so no slot is lost, duplicated or
  shared;
- a range in the hands of a caller, in a queue or in a list belongs to the
  segment of that place and is missing something (`held`), a range in
  `completeRanges` is missing nothing (`done`);
- the poller's iterator and its running check refer to a range of the list it is
  scanning (`poll`).

From the partition follow the capacity facts: `free()`'s push and `enqueue()`'s
push never fail.
-/

namespace Tagaspi

open Lts Containers

variable {T : Type}

/-- Where a pool slot can be. -/
inductive Place (T : Type) where
  /-- The allocator's free queue. -/
  | free
  /-- The hands of a caller, between `allocate` and `enqueue`. -/
  | hand (t : T)
  /-- The `WaitingRangeQueue` of a segment. -/
  | queue (segment : Nat)
  /-- The `WaitingRangeList` of a segment. -/
  | list (segment : Nat)
  /-- The part of `completeRanges` that is not yet freed. -/
  | complete
deriving DecidableEq

/-- The slot a call holds. -/
def Call.slots : Call → List Nat
  | .enqueue _ x => [x]
  | _ => []

/-- The slots at a place. -/
def State.holds (s : State T) : Place T → List Nat
  | .free => s.freeSlots
  | .hand t => (s.calls t).slots
  | .queue g => s.queues g
  | .list g => s.lists g
  | .complete => s.poller.completeRanges

/-- A range that is still waiting, on segment `g`. -/
structure WaitingRange.Pending (r : WaitingRange T) (g : Nat) : Prop where
  segment : r.segment = g
  pos : 0 < r.remaining
  bound : r.remaining ≤ r.numIds
  small : r.numIds < 2 ^ numberBits

/-- What holds of a call at every point. -/
def Call.Ok : Call → Prop
  | .idle => True
  | .checking c => c.Ok
  | .increase w r => 0 < r ∧ r ≤ w.numIds ∧ w.numIds < 2 ^ numberBits
  | .allocate w r => 0 < r ∧ r ≤ w.numIds ∧ w.numIds < 2 ^ numberBits
  | .enqueue _ _ => True

/-- What holds of the poller at every point. -/
def State.PollOk (s : State T) : Prop :=
  match s.poller.pc with
  | .idle | .segment | .dequeue _ => s.poller.completeRanges = []
  | .scan _ | .completing => True
  | .checking pos x c =>
    (s.lists s.poller.seg)[pos]? = some x ∧ c.wait = (s.objects x).toWait ∧ c.Ok
  | .freeing => s.poller.completeRanges ≠ []

/-- **The ownership invariant.** -/
structure Owned (s : State T) : Prop where
  parts : Partitions (· < numEntries) s.holds
  calls : ∀ t, (s.calls t).Ok
  poll : s.PollOk
  held : ∀ g x, (∃ t, s.calls t = .enqueue g x) ∨ x ∈ s.queues g ∨ x ∈ s.lists g →
    (s.objects x).Pending g
  hand : ∀ t g x, s.calls t = .enqueue g x → (s.objects x).task = t
  done : ∀ x ∈ s.poller.completeRanges, (s.objects x).remaining = 0

theorem owned_init {s : State T} (h : Initial s) : Owned s := by
  have hholds : ∀ p, p ≠ Place.free → s.holds p = [] := by
    intro p hp
    cases p with
    | free => exact absurd rfl hp
    | hand t =>
      show (s.calls t).slots = []
      rw [h.calls t]
      rfl
    | queue g => exact h.queues g
    | list g => exact h.lists g
    | complete =>
      show s.poller.completeRanges = []
      rw [h.poller]
  have hfree : s.holds .free = List.range numEntries := h.freeSlots
  have hmem : ∀ {p x}, x ∈ s.holds p → p = .free ∧ x < numEntries := by
    intro p x hx
    by_cases hp : p = Place.free
    · subst hp
      rw [hfree, List.mem_range] at hx
      exact ⟨rfl, hx⟩
    · rw [hholds p hp] at hx
      cases hx
  refine ⟨⟨?_, fun hx => (hmem hx).2, ?_, ?_⟩, ?_, ?_, ?_, ?_, ?_⟩
  · intro p
    by_cases hp : p = Place.free
    · subst hp
      rw [hfree]
      exact List.nodup_range
    · rw [hholds p hp]
      exact List.nodup_nil
  · intro p q x hp hq
    rw [(hmem hp).1, (hmem hq).1]
  · intro x hx
    exact ⟨.free, by rw [hfree]; exact List.mem_range.mpr hx⟩
  · intro t
    rw [h.calls t]
    trivial
  · unfold State.PollOk
    rw [h.poller]
  · rintro g x (⟨t, ht⟩ | hx | hx)
    · rw [h.calls t] at ht
      cases ht
    · rw [h.queues g] at hx
      cases hx
    · rw [h.lists g] at hx
      cases hx
  · intro t g x ht
    rw [h.calls t] at ht
    cases ht
  · intro x hx
    rw [h.poller] at hx
    cases hx

/-! ## Steps that move no range -/

/-- Two states that agree on everything ownership looks at, except for the running
checks. -/
structure SameOwners (s s' : State T) : Prop where
  free : s'.freeSlots = s.freeSlots
  slots : ∀ t, (s'.calls t).slots = (s.calls t).slots
  queues : s'.queues = s.queues
  lists : s'.lists = s.lists
  complete : s'.poller.completeRanges = s.poller.completeRanges
  wait : ∀ x, (s'.objects x).toWait = (s.objects x).toWait
  remaining : ∀ x, (s'.objects x).remaining = (s.objects x).remaining
  task : ∀ x, (s'.objects x).task = (s.objects x).task
  enqueue : ∀ t g x, s'.calls t = .enqueue g x → s.calls t = .enqueue g x

theorem SameOwners.refl (s : State T) : SameOwners s s :=
  ⟨rfl, fun _ => rfl, rfl, rfl, rfl, fun _ => rfl, fun _ => rfl, fun _ => rfl, fun _ _ _ h => h⟩

theorem SameOwners.trans {s₁ s₂ s₃ : State T} (h : SameOwners s₁ s₂) (h' : SameOwners s₂ s₃) :
    SameOwners s₁ s₃ where
  free := h'.free.trans h.free
  slots t := (h'.slots t).trans (h.slots t)
  queues := h'.queues.trans h.queues
  lists := h'.lists.trans h.lists
  complete := h'.complete.trans h.complete
  wait x := (h'.wait x).trans (h.wait x)
  remaining x := (h'.remaining x).trans (h.remaining x)
  task x := (h'.task x).trans (h.task x)
  enqueue t g x ht := h.enqueue t g x (h'.enqueue t g x ht)

theorem SameOwners.holds {s s' : State T} (h : SameOwners s s') : s'.holds = s.holds := by
  funext p
  cases p with
  | free => exact h.free
  | hand t => exact h.slots t
  | queue g => exact congrFun h.queues g
  | list g => exact congrFun h.lists g
  | complete => exact h.complete

theorem WaitingRange.Pending.congr {r r' : WaitingRange T} {g : Nat} (h : r.Pending g)
    (hw : r'.toWait = r.toWait) (hr : r'.remaining = r.remaining) : r'.Pending g := by
  have hseg : r'.segment = r.segment := congrArg Wait.segment hw
  have hnum : r'.numIds = r.numIds := congrArg Wait.numIds hw
  exact ⟨hseg.trans h.segment, hr ▸ h.pos, hr ▸ hnum ▸ h.bound, hnum ▸ h.small⟩

/-- The invariant survives a step that moves nothing, provided the calls and the
poller are still in order. -/
theorem Owned.same {s s' : State T} (h : Owned s) (hsame : SameOwners s s')
    (hcalls : ∀ t, (s'.calls t).Ok) (hpoll : s'.PollOk) : Owned s' where
  parts := by
    rw [hsame.holds]
    exact h.parts
  calls := hcalls
  poll := hpoll
  held g x hx := by
    refine (h.held g x ?_).congr (hsame.wait x) (hsame.remaining x)
    rcases hx with ⟨t, ht⟩ | hx | hx
    · exact Or.inl ⟨t, hsame.enqueue t g x ht⟩
    · exact Or.inr (Or.inl (hsame.queues ▸ hx))
    · exact Or.inr (Or.inr (hsame.lists ▸ hx))
  hand t g x ht := (hsame.task x).trans (h.hand t g x (hsame.enqueue t g x ht))
  done x hx := by
    rw [hsame.complete] at hx
    exact (hsame.remaining x).trans (h.done x hx)

/-- The poller's own facts only depend on the poller, its list and its ranges. -/
theorem State.PollOk.congr {s s' : State T} (h : s.PollOk) (hp : s'.poller = s.poller)
    (hl : s'.lists = s.lists)
    (hw : ∀ pos x c, s.poller.pc = .checking pos x c →
      (s'.objects x).toWait = (s.objects x).toWait) : s'.PollOk := by
  unfold State.PollOk at h ⊢
  rw [hp, hl]
  cases hpc : s.poller.pc with
  | checking pos x c =>
    rw [hpc] at h
    exact ⟨h.1, h.2.1.trans (hw pos x c hpc).symm, h.2.2⟩
  | _ =>
    rw [hpc] at h
    exact h

theorem sameOwners_store (s : State T) (g : Target) (i v : Nat) :
    SameOwners s (s.store g i v) := by
  refine ⟨by simp, fun t => by simp, by simp, by simp, by simp, fun x => by simp,
    fun x => by simp, fun x => by simp, fun t g' x h => by simpa using h⟩

/-! ### Reading a state -/

theorem check_task {s : State T} {t : T} {c : Check} (h : s.check (.task t) = some c) :
    s.calls t = .checking c := by
  unfold State.check at h
  cases hc : s.calls t <;> simp_all

theorem check_poller {s : State T} {c : Check} (h : s.check .poller = some c) :
    ∃ pos x, s.poller.pc = .checking pos x c := by
  unfold State.check at h
  cases hc : s.poller.pc <;> simp_all

/-- Taking a notification and storing its value moves no range. -/
theorem sameOwners_take (s : State T) (c : Check) (id v : Nat) :
    SameOwners s ((s.takeNotification c.wait.segment id).storeNotification c id v) := by
  have htake : SameOwners s (s.takeNotification c.wait.segment id) :=
    ⟨rfl, fun _ => rfl, rfl, rfl, rfl, fun _ => rfl, fun _ => rfl, fun _ => rfl, fun _ _ _ h => h⟩
  rcases State.storeNotification_cases (s.takeNotification c.wait.segment id) c id v with h | h
  · rw [h]
    exact htake
  · rw [h]
    exact htake.trans (sameOwners_store _ _ _ _)

@[simp] theorem take_calls (s : State T) (c : Check) (id v : Nat) :
    ((s.takeNotification c.wait.segment id).storeNotification c id v).calls = s.calls := by
  rcases State.storeNotification_cases (s.takeNotification c.wait.segment id) c id v with h | h
  · rw [h]
    rfl
  · rw [h, State.store_calls]
    rfl

@[simp] theorem take_poller (s : State T) (c : Check) (id v : Nat) :
    ((s.takeNotification c.wait.segment id).storeNotification c id v).poller = s.poller := by
  rcases State.storeNotification_cases (s.takeNotification c.wait.segment id) c id v with h | h
  · rw [h]
    rfl
  · rw [h, State.store_poller]
    rfl

/-- A slot that is in use keeps its object when another slot is constructed. -/
theorem construct_of_ne {s : State T} {x y : Nat} {w : Wait} {r : Nat} {t : T} (h : y ≠ x) :
    (s.construct x w r t).objects y = s.objects y :=
  Function.update_of_ne h ..

theorem construct_self {s : State T} {x : Nat} {w : Wait} {r : Nat} {t : T} :
    (s.construct x w r t).objects x =
      { toWait := w, notifiedValue := (s.objects x).notifiedValue, remaining := r, task := t } :=
  Function.update_self ..

theorem mem_hand {s : State T} {t : T} {g x : Nat} (h : s.calls t = .enqueue g x) :
    x ∈ s.holds (.hand t) := by
  show x ∈ (s.calls t).slots
  rw [h]
  exact List.mem_cons_self ..

variable [DecidableEq T] {cfg : Limits}

theorem sameOwners_setCall {s : State T} {t : T} {c : Call} (hc : c.slots = [])
    (hs : (s.calls t).slots = []) : SameOwners s (s.setCall t c) := by
  refine ⟨rfl, fun t' => ?_, rfl, rfl, rfl, fun _ => rfl, fun _ => rfl, fun _ => rfl, ?_⟩
  · by_cases ht : t' = t
    · subst ht
      rw [State.setCall_self, hc, hs]
    · rw [State.setCall_of_ne _ ht]
  · intro t' g x hg
    by_cases ht : t' = t
    · subst ht
      rw [State.setCall_self] at hg
      rw [hg] at hc
      cases hc
    · rwa [State.setCall_of_ne _ ht] at hg

theorem callOk_setCall {s : State T} {t : T} {c : Call} (h : ∀ t, (s.calls t).Ok) (hc : c.Ok) :
    ∀ t', ((s.setCall t c).calls t').Ok := by
  intro t'
  by_cases ht : t' = t
  · subst ht
    rw [State.setCall_self]
    exact hc
  · rw [State.setCall_of_ne _ ht]
    exact h t'

theorem owned_setCall {s : State T} {t : T} {c : Call} (h : Owned s) (hc : c.slots = [])
    (hs : (s.calls t).slots = []) (hok : c.Ok) : Owned (s.setCall t c) :=
  h.same (sameOwners_setCall hc hs) (callOk_setCall h.calls hok)
    (h.poll.congr rfl rfl fun _ _ _ _ => rfl)

/-! ### Checks -/

omit [DecidableEq T] in
/-- Every running check is in order. -/
theorem Owned.check_ok {s : State T} (h : Owned s) {a : Agent T} {c : Check}
    (hc : s.check a = some c) : c.Ok := by
  cases a with
  | task t =>
    have := h.calls t
    rw [check_task hc] at this
    exact this
  | poller =>
    obtain ⟨pos, x, hpc⟩ := check_poller hc
    have := h.poll
    rw [State.PollOk, hpc] at this
    exact this.2.2

/-- The poller's check is in its program counter. -/
theorem setCheck_poller {s : State T} {pos x : Nat} {c : Check}
    (h : s.poller.pc = .checking pos x c) (c' : Check) :
    s.setCheck .poller c' = s.setPc (.checking pos x c') := by
  simp only [State.setCheck, h, State.setPc]

/-- A check that goes on for the same operation keeps the invariant. -/
theorem Owned.setCheck {s : State T} (h : Owned s) {a : Agent T} {c c' : Check}
    (hc : s.check a = some c) (hw : c'.wait = c.wait) (hok : c'.Ok) : Owned (s.setCheck a c') := by
  cases a with
  | task t =>
    have hcall := check_task hc
    exact owned_setCall h rfl (by rw [hcall]; rfl) hok
  | poller =>
    obtain ⟨pos, x, hpc⟩ := check_poller hc
    have hpoll := h.poll
    rw [State.PollOk, hpc] at hpoll
    rw [setCheck_poller hpc]
    refine h.same ⟨rfl, fun _ => rfl, rfl, rfl, rfl, fun _ => rfl, fun _ => rfl, fun _ => rfl,
      fun _ _ _ ht => ht⟩ h.calls ?_
    exact ⟨hpoll.1, hw.trans hpoll.2.1, hok⟩

omit [DecidableEq T] in
theorem take_check (s : State T) (c : Check) (id v : Nat) (a : Agent T) :
    ((s.takeNotification c.wait.segment id).storeNotification c id v).check a = s.check a := by
  cases a with
  | task t => simp only [State.check, take_calls]
  | poller => simp only [State.check, take_poller]

theorem owned_reset {s : State T} (h : Owned s) {a : Agent T} {c : Check} {id v : Nat}
    (hc : s.check a = some c) (hpc : c.pc = .reset id) :
    Owned (((s.takeNotification c.wait.segment id).storeNotification c id v).setCheck a
      (c.afterReset v)) := by
  have hsame := sameOwners_take s c id v
  have htaken : Owned ((s.takeNotification c.wait.segment id).storeNotification c id v) := by
    refine h.same hsame ?_ ?_
    · rw [take_calls]
      exact h.calls
    · exact h.poll.congr (take_poller s c id v) hsame.lists fun _ x _ _ => hsame.wait x
  exact htaken.setCheck ((take_check s c id v a).trans hc) (by simp)
    ((h.check_ok hc).afterReset hpc v)

/-! ## Steps that move a range -/

theorem owned_allocate {s : State T} (h : Owned s) {t : T} {w : Wait} {r x : Nat}
    {rest : List Nat} (ht : s.calls t = .allocate w r) (hfree : s.freeSlots = x :: rest) :
    Owned { (s.construct x w r t).setCall t (.enqueue w.segment x) with freeSlots := rest } := by
  have hxfree : x ∈ s.holds .free := by
    show x ∈ s.freeSlots
    rw [hfree]
    exact List.mem_cons_self ..
  have hne : ∀ {p y}, p ≠ Place.free → y ∈ s.holds p → y ≠ x := by
    rintro p y hp hy rfl
    exact hp (h.parts.unique hy hxfree)
  have hok := h.calls t
  rw [ht] at hok
  refine ⟨?_, ?_, ?_, ?_, ?_, ?_⟩
  · refine h.parts.move (p := .free) (q := .hand t) (x := x) (by simp) ?_ ?_ ?_
    · show s.freeSlots.Perm (x :: rest)
      rw [hfree]
    · show ((Function.update s.calls t (.enqueue w.segment x)) t).slots.Perm
        (x :: (s.calls t).slots)
      rw [Function.update_self, ht]
      exact List.Perm.refl _
    · intro p hp hq
      cases p with
      | free => exact absurd rfl hp
      | hand t' =>
        show ((Function.update s.calls t (.enqueue w.segment x)) t').slots = (s.calls t').slots
        rw [Function.update_of_ne (fun heq => hq (by rw [heq]))]
      | _ => rfl
  · exact callOk_setCall (s := s.construct x w r t) h.calls trivial
  · refine h.poll.congr rfl rfl fun pos y c hpc => ?_
    have hpoll := h.poll
    rw [State.PollOk, hpc] at hpoll
    have hy : y ∈ s.holds (.list s.poller.seg) := List.mem_of_getElem? hpoll.1
    show ((s.construct x w r t).objects y).toWait = _
    rw [construct_of_ne (hne (by simp) hy)]
  · rintro g y (⟨t', ht'⟩ | hy | hy)
    · by_cases htt : t' = t
      · subst htt
        have heq : Call.enqueue w.segment x = .enqueue g y :=
          (State.setCall_self ..).symm.trans ht'
        obtain ⟨rfl, rfl⟩ := Call.enqueue.inj heq
        show ((s.construct x w r t').objects x).Pending w.segment
        rw [construct_self]
        exact ⟨rfl, hok.1, hok.2.1, hok.2.2⟩
      · have hold : s.calls t' = .enqueue g y := (State.setCall_of_ne _ htt _).symm.trans ht'
        show ((s.construct x w r t).objects y).Pending g
        rw [construct_of_ne (hne (by simp) (mem_hand hold))]
        exact h.held g y (Or.inl ⟨t', hold⟩)
    · show ((s.construct x w r t).objects y).Pending g
      rw [construct_of_ne (hne (p := .queue g) (by simp) hy)]
      exact h.held g y (Or.inr (Or.inl hy))
    · show ((s.construct x w r t).objects y).Pending g
      rw [construct_of_ne (hne (p := .list g) (by simp) hy)]
      exact h.held g y (Or.inr (Or.inr hy))
  · intro t' g y ht'
    by_cases htt : t' = t
    · subst htt
      have heq : Call.enqueue w.segment x = .enqueue g y :=
        (State.setCall_self ..).symm.trans ht'
      obtain ⟨rfl, rfl⟩ := Call.enqueue.inj heq
      show ((s.construct x w r t').objects x).task = t'
      rw [construct_self]
    · have hold : s.calls t' = .enqueue g y := (State.setCall_of_ne _ htt _).symm.trans ht'
      show ((s.construct x w r t).objects y).task = t'
      rw [construct_of_ne (hne (by simp) (mem_hand hold))]
      exact h.hand t' g y hold
  · intro y hy
    show ((s.construct x w r t).objects y).remaining = 0
    rw [construct_of_ne (hne (p := .complete) (by simp) hy)]
    exact h.done y hy

theorem owned_enqueue {s : State T} (h : Owned s) {t : T} {g x : Nat}
    (ht : s.calls t = .enqueue g x) :
    Owned { s.setCall t .idle with
      queues := Function.update s.queues g (s.queues g ++ [x]) } := by
  -- a call that still holds a slot after the step held it before
  have hback : ∀ {t' g' y}, (s.setCall t .idle).calls t' = .enqueue g' y →
      s.calls t' = .enqueue g' y := by
    intro t' g' y hy
    by_cases htt : t' = t
    · subst htt
      rw [State.setCall_self] at hy
      cases hy
    · rwa [State.setCall_of_ne _ htt] at hy
  refine ⟨?_, callOk_setCall h.calls trivial, h.poll.congr rfl rfl fun _ _ _ _ => rfl, ?_, ?_,
    h.done⟩
  · refine h.parts.move (p := .hand t) (q := .queue g) (x := x) (by simp) ?_ ?_ ?_
    · show (s.calls t).slots.Perm (x :: ((s.setCall t .idle).calls t).slots)
      rw [ht, State.setCall_self]
      exact List.Perm.refl _
    · show (Function.update s.queues g (s.queues g ++ [x]) g).Perm (x :: s.queues g)
      rw [Function.update_self]
      exact List.perm_append_singleton x _
    · intro p hp hq
      cases p with
      | hand t' =>
        show ((s.setCall t .idle).calls t').slots = (s.calls t').slots
        rw [State.setCall_of_ne _ (fun heq => hp (by rw [heq]))]
      | queue g' =>
        show Function.update s.queues g (s.queues g ++ [x]) g' = s.queues g'
        rw [Function.update_of_ne (fun heq => hq (by rw [heq]))]
      | _ => rfl
  · rintro g' y (⟨t', ht'⟩ | hy | hy)
    · exact h.held g' y (Or.inl ⟨t', hback ht'⟩)
    · have hy' : y ∈ Function.update s.queues g (s.queues g ++ [x]) g' := hy
      by_cases hg : g' = g
      · subst hg
        rw [Function.update_self, List.mem_append, List.mem_singleton] at hy'
        rcases hy' with hy' | rfl
        · exact h.held g' y (Or.inr (Or.inl hy'))
        · exact h.held g' y (Or.inl ⟨t, ht⟩)
      · rw [Function.update_of_ne hg] at hy'
        exact h.held g' y (Or.inr (Or.inl hy'))
    · exact h.held g' y (Or.inr (Or.inr hy))
  · intro t' g' y ht'
    exact h.hand t' g' y (hback ht')

omit [DecidableEq T] in
/-- Moving the poller inside its code keeps the invariant when the poller's own
facts hold at the new point. -/
theorem owned_setPc {s : State T} (h : Owned s) {pc : PollPc} (hpoll : (s.setPc pc).PollOk) :
    Owned (s.setPc pc) :=
  h.same ⟨rfl, fun _ => rfl, rfl, rfl, rfl, fun _ => rfl, fun _ => rfl, fun _ => rfl,
    fun _ _ _ ht => ht⟩ h.calls hpoll

omit [DecidableEq T] in
theorem owned_dequeue {s : State T} (h : Owned s) {left x : Nat} {rest : List Nat}
    (hpc : s.poller.pc = .dequeue (left + 1)) (hq : s.queues s.poller.seg = x :: rest) :
    Owned { s.setPc (.dequeue left) with
      queues := Function.update s.queues s.poller.seg rest
      lists := Function.update s.lists s.poller.seg (s.lists s.poller.seg ++ [x]) } := by
  have hpoll := h.poll
  rw [State.PollOk, hpc] at hpoll
  have hxq : x ∈ s.queues s.poller.seg := by
    rw [hq]
    exact List.mem_cons_self ..
  refine ⟨?_, h.calls, hpoll, ?_, h.hand, h.done⟩
  · refine h.parts.move (p := .queue s.poller.seg) (q := .list s.poller.seg) (x := x)
      (by simp) ?_ ?_ ?_
    · show (s.queues s.poller.seg).Perm (x :: Function.update s.queues s.poller.seg rest _)
      rw [Function.update_self, hq]
    · show (Function.update s.lists s.poller.seg (s.lists s.poller.seg ++ [x]) _).Perm _
      rw [Function.update_self]
      exact List.perm_append_singleton x _
    · intro p hp hl
      cases p with
      | queue g' =>
        show Function.update s.queues s.poller.seg rest g' = s.queues g'
        rw [Function.update_of_ne (fun heq => hp (by rw [heq]))]
      | list g' =>
        show Function.update s.lists s.poller.seg (s.lists s.poller.seg ++ [x]) g' = s.lists g'
        rw [Function.update_of_ne (fun heq => hl (by rw [heq]))]
      | _ => rfl
  · rintro g y (⟨t, ht⟩ | hy | hy)
    · exact h.held g y (Or.inl ⟨t, ht⟩)
    · have hy' : y ∈ Function.update s.queues s.poller.seg rest g := hy
      refine h.held g y (Or.inr (Or.inl ?_))
      by_cases hg : g = s.poller.seg
      · subst hg
        rw [Function.update_self] at hy'
        rw [hq]
        exact List.mem_cons_of_mem _ hy'
      · rwa [Function.update_of_ne hg] at hy'
    · have hy' : y ∈ Function.update s.lists s.poller.seg (s.lists s.poller.seg ++ [x]) g := hy
      by_cases hg : g = s.poller.seg
      · subst hg
        rw [Function.update_self, List.mem_append, List.mem_singleton] at hy'
        rcases hy' with hy' | rfl
        · exact h.held _ y (Or.inr (Or.inr hy'))
        · exact h.held _ y (Or.inr (Or.inl hxq))
      · rw [Function.update_of_ne hg] at hy'
        exact h.held g y (Or.inr (Or.inr hy'))

/-! ### The end of a poller check -/

section Checked

omit [DecidableEq T]

/-- Copying the value back does not interfere with the list. -/
theorem sameOwners_advance (s : State T) (pos x r : Nat) :
    SameOwners (s.advance pos x r) ((s.copyBack x).advance pos x r) := by
  rcases s.copyBack_cases x with h | ⟨g, v, h⟩
  · rw [h]
    exact SameOwners.refl _
  · rw [h]
    unfold State.advance State.setPc
    by_cases hr : r = 0
    · simp only [if_pos hr]
      exact ⟨by simp, fun _ => by simp, by simp, by simp, by simp, fun _ => by simp,
        fun _ => by simp, fun _ => by simp, fun _ _ _ ht => by simpa using ht⟩
    · simp only [if_neg hr]
      exact ⟨by simp, fun _ => by simp, by simp, by simp, by simp, fun _ => by simp,
        fun _ => by simp, fun _ => by simp, fun _ _ _ ht => by simpa using ht⟩

theorem setRemaining_of_ne {s : State T} {x y r : Nat} (h : y ≠ x) :
    (s.setRemaining x r).objects y = s.objects y :=
  Function.update_of_ne h ..

theorem setRemaining_self {s : State T} {x r : Nat} :
    (s.setRemaining x r).objects x = { s.objects x with remaining := r } :=
  Function.update_self ..

/-- The check found less than everything: the range stays in its list. -/
theorem owned_stay {s : State T} (h : Owned s) {pos x r : Nat}
    (hx : (s.lists s.poller.seg)[pos]? = some x) (hpos : 0 < r)
    (hbound : r ≤ (s.objects x).numIds) :
    Owned ((s.setRemaining x r).setPc (.scan (pos + 1))) := by
  have hxl : x ∈ s.holds (.list s.poller.seg) := List.mem_of_getElem? hx
  have hheldx := h.held s.poller.seg x (Or.inr (Or.inr hxl))
  refine ⟨h.parts, h.calls, trivial, ?_, ?_, ?_⟩
  · intro g y hy
    have hold := h.held g y hy
    show ((s.setRemaining x r).objects y).Pending g
    by_cases hyx : y = x
    · subst hyx
      rw [setRemaining_self]
      exact ⟨hold.segment, hpos, hbound, hold.small⟩
    · rw [setRemaining_of_ne hyx]
      exact hold
  · intro t g y ht
    show ((s.setRemaining x r).objects y).task = t
    by_cases hyx : y = x
    · subst hyx
      rw [setRemaining_self]
      exact h.hand t g y ht
    · rw [setRemaining_of_ne hyx]
      exact h.hand t g y ht
  · intro y hy
    have hyx : y ≠ x := by
      rintro rfl
      exact absurd (h.parts.unique (p := .complete) hy hxl) (by simp)
    show ((s.setRemaining x r).objects y).remaining = 0
    rw [setRemaining_of_ne hyx]
    exact h.done y hy

/-- The check found everything: the range moves to `completeRanges`. -/
theorem owned_finish {s : State T} (h : Owned s) {pos x : Nat}
    (hx : (s.lists s.poller.seg)[pos]? = some x) :
    Owned ((s.setRemaining x 0).advance pos x 0) := by
  have hxl : x ∈ s.holds (.list s.poller.seg) := List.mem_of_getElem? hx
  have hperm : (s.lists s.poller.seg).Perm (x :: (s.lists s.poller.seg).eraseIdx pos) := by
    obtain ⟨hlt, rfl⟩ := List.getElem?_eq_some_iff.mp hx
    exact (List.getElem_cons_eraseIdx_perm hlt).symm
  have hnd : x ∉ (s.lists s.poller.seg).eraseIdx pos :=
    (List.nodup_cons.mp (hperm.nodup_iff.mp (h.parts.nodup (.list s.poller.seg)))).1
  have hne : ∀ {p y}, p ≠ Place.list s.poller.seg → y ∈ s.holds p → y ≠ x := by
    rintro p y hp hy rfl
    exact hp (h.parts.unique hy hxl)
  refine ⟨?_, h.calls, trivial, ?_, ?_, ?_⟩
  · refine h.parts.move (p := .list s.poller.seg) (q := .complete) (x := x) (by simp) ?_ ?_ ?_
    · show (s.lists s.poller.seg).Perm (x :: Function.update s.lists s.poller.seg _ _)
      rw [Function.update_self]
      exact hperm
    · show (s.poller.completeRanges ++ [x]).Perm (x :: s.poller.completeRanges)
      exact List.perm_append_singleton x _
    · intro p hp hq
      cases p with
      | list g' =>
        show Function.update s.lists s.poller.seg _ g' = s.lists g'
        rw [Function.update_of_ne (fun heq => hp (by rw [heq]))]
      | complete => exact absurd rfl hq
      | _ => rfl
  · rintro g y (⟨t, ht⟩ | hy | hy)
    · show ((s.setRemaining x 0).objects y).Pending g
      rw [setRemaining_of_ne (hne (by simp) (mem_hand ht))]
      exact h.held g y (Or.inl ⟨t, ht⟩)
    · show ((s.setRemaining x 0).objects y).Pending g
      rw [setRemaining_of_ne (hne (p := .queue g) (by simp) hy)]
      exact h.held g y (Or.inr (Or.inl hy))
    · have hy' : y ∈ Function.update s.lists s.poller.seg
          ((s.lists s.poller.seg).eraseIdx pos) g := hy
      show ((s.setRemaining x 0).objects y).Pending g
      by_cases hg : g = s.poller.seg
      · subst hg
        rw [Function.update_self] at hy'
        rw [setRemaining_of_ne (by rintro rfl; exact hnd hy')]
        exact h.held _ y (Or.inr (Or.inr (List.mem_of_mem_eraseIdx hy')))
      · rw [Function.update_of_ne hg] at hy'
        rw [setRemaining_of_ne (hne (p := .list g) (by simpa using hg) hy')]
        exact h.held g y (Or.inr (Or.inr hy'))
  · intro t g y ht
    show ((s.setRemaining x 0).objects y).task = t
    rw [setRemaining_of_ne (hne (by simp) (mem_hand ht))]
    exact h.hand t g y ht
  · intro y hy
    have hy' : y ∈ s.poller.completeRanges ++ [x] := hy
    show ((s.setRemaining x 0).objects y).remaining = 0
    rw [List.mem_append, List.mem_singleton] at hy'
    rcases hy' with hy' | rfl
    · rw [setRemaining_of_ne (hne (p := .complete) (by simp) hy')]
      exact h.done y hy'
    · rw [setRemaining_self]

/-- The end of the check of one range, either way. -/
theorem owned_checked {s : State T} (h : Owned s) {pos x : Nat} {c : Check}
    (hpc : s.poller.pc = .checking pos x c) :
    Owned (((s.setRemaining x c.remaining).copyBack x).advance pos x c.remaining) := by
  have hpoll := h.poll
  rw [State.PollOk, hpc] at hpoll
  obtain ⟨hx, hwait, hok⟩ := hpoll
  have hsame := sameOwners_advance (s.setRemaining x c.remaining) pos x c.remaining
  have hmoved : Owned ((s.setRemaining x c.remaining).advance pos x c.remaining) := by
    by_cases hr : c.remaining = 0
    · rw [hr]
      exact owned_finish h hx
    · rw [State.advance, if_neg hr]
      refine owned_stay h hx (Nat.pos_of_ne_zero hr) ?_
      have := hok.bound
      rwa [hwait] at this
  refine hmoved.same hsame ?_ ?_
  · intro t
    rw [State.advance_calls, State.copyBack_calls]
    exact h.calls t
  · unfold State.PollOk State.advance State.setPc
    by_cases hr : c.remaining = 0 <;> simp [hr]

end Checked

omit [DecidableEq T] in
/-- `Allocator::free` never finds the free queue full while the poller still holds
the range. -/
theorem Owned.free_push {s : State T} (h : Owned s) {x : Nat}
    (hx : x ∈ s.poller.completeRanges) : s.freeSlots.length < numEntries :=
  h.parts.length_lt (p := .complete) (q := .free) hx (by simp)

omit [DecidableEq T] in
theorem owned_free {s : State T} (h : Owned s) {x : Nat} {rest : List Nat}
    (hc : s.poller.completeRanges = x :: rest) :
    Owned { s.free x with
      poller := { s.poller with pc := .completing, completeRanges := rest } } := by
  have hx : x ∈ s.poller.completeRanges := by
    rw [hc]
    exact List.mem_cons_self ..
  have hpush : s.free x = { s with freeSlots := s.freeSlots ++ [x] } := if_pos (h.free_push hx)
  rw [hpush]
  refine ⟨?_, h.calls, trivial, h.held, h.hand, fun y hy => h.done y ?_⟩
  · refine h.parts.move (p := .complete) (q := .free) (x := x) (by simp) ?_ ?_ ?_
    · show s.poller.completeRanges.Perm (x :: rest)
      rw [hc]
    · exact List.perm_append_singleton x _
    · intro p hp hq
      cases p with
      | free => exact absurd rfl hq
      | complete => exact absurd rfl hp
      | _ => rfl
  · rw [hc]
    exact List.mem_cons_of_mem _ hy

/-! ## The invariant -/

omit [DecidableEq T] in
/-- Ownership does not look at the notifications or at the operation counter. -/
theorem Owned.ghost {s : State T} (h : Owned s) (f : Nat × Nat → Nat) (n : Nat) :
    Owned { s with notifications := f, nextOp := n } :=
  ⟨h.parts, h.calls, h.poll, h.held, h.hand, h.done⟩

/-- Every step keeps the ownership invariant. -/
theorem owned_step {s s' : State T} {es : List (Event T)} (h : Owned s)
    (hs : Step cfg s es s') : Owned s' := by
  have hpoll := h.poll
  cases hs with
  | arrive segment id value hv =>
    exact h.ghost _ _
  | notifyAsyncWait t segment id values ht hseg =>
    have hok : (Check.notifyAsyncWait (s.newWait segment id 1 values)).Ok := .notifyAsyncWait rfl
    exact (owned_setCall (c := .checking _) h rfl (by rw [ht]; rfl) hok).ghost _ _
  | notifyAsyncWaitall t segment first num values ht hseg hpos hsmall =>
    have hok : (Check.notifyAsyncWaitall (s.newWait segment first num values)).Ok :=
      .notifyAsyncWaitall hpos hsmall
    exact (owned_setCall (c := .checking _) h rfl (by rw [ht]; rfl) hok).ghost _ _
  | notifyAsyncWaitallNone t ht => exact h
  | timeout hc hpc hnone => exact h.setCheck hc rfl (h.check_ok hc).afterTimeout
  | waitsome id hc hpc hid hval =>
    exact h.setCheck hc (by simp) ((h.check_ok hc).afterWaitsome hpc hid)
  | reset hc hpc hval => exact owned_reset h hc hpc
  | callReturn ht hpc hr => exact owned_setCall h rfl (by rw [ht]; rfl) trivial
  | @callMissing t c ht hpc hr =>
    have hok : c.Ok := by
      have := h.calls t
      rwa [ht] at this
    exact owned_setCall h rfl (by rw [ht]; rfl) ⟨Nat.pos_of_ne_zero hr, hok.bound, hok.small⟩
  | @callIncrease t w r ht =>
    have hok := h.calls t
    rw [ht] at hok
    exact owned_setCall h rfl (by rw [ht]; rfl) hok
  | callAllocate ht hfree => exact owned_allocate h ht hfree
  | callEnqueue ht hcap => exact owned_enqueue h ht
  | pollStart hpc =>
    rw [State.PollOk, hpc] at hpoll
    exact h.same ⟨rfl, fun _ => rfl, rfl, rfl, hpoll.symm, fun _ => rfl, fun _ => rfl,
      fun _ => rfl, fun _ _ _ ht => ht⟩ h.calls rfl
  | pollSegment hpc hseg =>
    rw [State.PollOk, hpc] at hpoll
    exact owned_setPc h hpoll
  | pollEnd hpc hseg =>
    rw [State.PollOk, hpc] at hpoll
    exact owned_setPc h hpoll
  | pollDequeue hpc hq => exact owned_dequeue h hpc hq
  | pollDequeued hpc => exact owned_setPc h trivial
  | @pollCheck pos x hpc hx =>
    have hheld := h.held s.poller.seg x (Or.inr (Or.inr (List.mem_of_getElem? hx)))
    refine owned_setPc h ⟨hx, ?_, ?_⟩
    · unfold State.beginCheck
      by_cases hn : (s.objects x).numIds = 1
      · simp only [if_pos hn]; rfl
      · simp only [if_neg hn]; rfl
    · unfold State.beginCheck
      by_cases hn : (s.objects x).numIds = 1
      · simp only [if_pos hn]
        exact ⟨fun _ => hn, fun _ => Nat.one_pos, Nat.le_of_eq hn.symm, hheld.small,
          fun _ hid => by cases hid⟩
      · simp only [if_neg hn]
        exact ⟨fun hone => Routine.noConfusion hone, fun _ => hheld.pos, hheld.bound,
          hheld.small, fun _ hid => by cases hid⟩
  | pollChecked hpc hret => exact owned_checked h hpc
  | pollScanned hpc hx => exact owned_setPc h trivial
  | @pollComplete x rest hpc hc =>
    refine owned_setPc h ?_
    show s.poller.completeRanges ≠ []
    rw [hc]
    exact List.cons_ne_nil _ _
  | pollFree hpc hc => exact owned_free h hc
  | pollNext hpc hc =>
    exact h.same ⟨rfl, fun _ => rfl, rfl, rfl, hc.symm, fun _ => rfl, fun _ => rfl,
      fun _ => rfl, fun _ _ _ ht => ht⟩ h.calls rfl

/-- The ownership invariant holds in every reachable state. -/
theorem owned_reach {tr : List (Event T)} {s : State T} (h : Reach (machine T cfg) tr s) :
    Owned s :=
  Reach.invariant (I := fun _ s => Owned s) (fun _ hi => owned_init hi)
    (fun _ _ _ _ _ ho hs => owned_step ho hs) h

end Tagaspi
