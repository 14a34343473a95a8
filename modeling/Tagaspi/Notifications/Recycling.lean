import Tagaspi.Notifications.Ownership

/-!
# The life cycle of a pool slot

Every slot goes through `allocate`, `complete`, `free`, in this order and over
and over. `phaseOf` reads the point of the cycle off a trace and `State.phase`
off a state; that the two agree along every run is what makes `complete()` run
exactly once per allocation. With the partition of the pool this gives the full
account of who owns a waiting range (`range_ownership`).
-/

namespace Tagaspi

open Lts Containers

variable {T : Type}

/-- Where a slot is in its cycle `allocate`, `complete`, `free`. -/
inductive Phase where
  | free
  | allocated
  | completed
deriving DecidableEq, Repr

/-- The phase of slot `x` after one more event. -/
def Phase.next (x : Nat) (p : Phase) : Event T → Phase
  | .allocate y _ => if y = x then .allocated else p
  | .complete y _ _ => if y = x then .completed else p
  | .free y => if y = x then .free else p
  | _ => p

/-- The phase of slot `x` after a trace. -/
def phaseOf (x : Nat) (tr : List (Event T)) : Phase := tr.foldl (Phase.next x) .free

/-- The events of each slot follow the cycle: `complete()` is called once after
each `allocate` and before the `free` that ends it. -/
def FollowsCycle (pre : List (Event T)) : Event T → Prop
  | .allocate x _ => phaseOf x pre = .free
  | .complete x _ _ => phaseOf x pre = .allocated
  | .free x => phaseOf x pre = .completed
  | _ => True

/-- The phase of a slot, read off the state. -/
def State.phase (s : State T) (x : Nat) : Phase :=
  if x ∈ s.freeSlots then .free
  else if s.poller.pc = .freeing ∧ s.poller.completeRanges.head? = some x then .completed
  else .allocated

theorem State.phase_congr {s s' : State T} (hf : s'.freeSlots = s.freeSlots)
    (hp : s'.poller.pc = .freeing ↔ s.poller.pc = .freeing)
    (hc : s.poller.pc = .freeing → s'.poller.completeRanges = s.poller.completeRanges) :
    s'.phase = s.phase := by
  funext x
  unfold State.phase
  rw [hf]
  by_cases hpc : s.poller.pc = .freeing
  · simp only [hpc, hp.mpr hpc, hc hpc]
  · simp only [hpc, mt hp.mp hpc, false_and]

/-- A slot in use is not free. -/
theorem Owned.not_free {s : State T} (h : Owned s) {p : Place T} {x : Nat} (hx : x ∈ s.holds p)
    (hp : p ≠ .free) : x ∉ s.freeSlots :=
  h.parts.not_mem (q := .free) hx (Ne.symm hp)

variable [DecidableEq T] {cfg : Limits}

/-- An event of the slot cycle. -/
def Event.isSlotEvent : Event T → Bool
  | .allocate _ _ => true
  | .complete _ _ _ => true
  | .free _ => true
  | _ => false

omit [DecidableEq T] in
/-- Storing a notification reports user writes only. -/
theorem mem_writes {c : Check} {id v : Nat} {e : Event T} (h : e ∈ c.writes id v) :
    ∃ a, c.target = .user a ∧ v ≠ 0 ∧ e = .write c.wait (c.index id) v := by
  unfold Check.writes at h
  cases ht : c.target with
  | user a =>
    by_cases hv : v ≠ 0
    · rw [ht] at h
      simp only [if_pos hv, List.mem_singleton] at h
      exact ⟨a, rfl, hv, h⟩
    · rw [ht] at h
      simp [if_neg hv] at h
  | _ => simp [ht] at h

omit [DecidableEq T] in
/-- What a reset reports. -/
theorem mem_reset {a : Agent T} {c : Check} {id v : Nat} {e : Event T}
    (h : e ∈ (.reset a c.wait id v :: c.writes id v : List (Event T))) :
    e = .reset a c.wait id v ∨ e = .write c.wait (c.index id) v := by
  rcases List.mem_cons.mp h with h | h
  · exact Or.inl h
  · obtain ⟨b, -, -, h⟩ := mem_writes h
    exact Or.inr h

omit [DecidableEq T] in
/-- Copying back reports user writes only. -/
theorem mem_copyBackEvents {s : State T} {x : Nat} {e : Event T} (h : e ∈ s.copyBackEvents x) :
    (s.objects x).numIds = 1 ∧ (s.objects x).notifiedValues ≠ none ∧
      e = .write (s.objects x).toWait 0 (s.objects x).notifiedValue := by
  unfold State.copyBackEvents at h
  by_cases hc : (s.objects x).numIds = 1 ∧ (s.objects x).notifiedValues ≠ none
  · rw [if_pos hc, List.mem_singleton] at h
    exact ⟨hc.1, hc.2, h⟩
  · rw [if_neg hc] at h
    cases h

omit [DecidableEq T] in
/-- Neither a reset nor a copy back is an event of the slot cycle. -/
theorem reset_isSlotEvent (a : Agent T) (c : Check) (id v : Nat) :
    ∀ e ∈ (.reset a c.wait id v :: c.writes id v : List (Event T)), e.isSlotEvent = false := by
  intro e he
  rcases mem_reset he with rfl | rfl
  · rfl
  · rfl

omit [DecidableEq T] in
theorem copyBack_isSlotEvent (s : State T) (x : Nat) :
    ∀ e ∈ s.copyBackEvents x, e.isSlotEvent = false := by
  intro e he
  obtain ⟨-, -, rfl⟩ := mem_copyBackEvents he
  rfl

/-- A check in progress is not the poller's freeing loop. -/
theorem setCheck_freeing {s : State T} {a : Agent T} {c c' : Check} (hc : s.check a = some c) :
    (s.setCheck a c').poller.pc = .freeing ↔ s.poller.pc = .freeing := by
  cases a with
  | task t => exact Iff.rfl
  | poller =>
    obtain ⟨pos, x, hpc⟩ := check_poller hc
    simp [State.setCheck, hpc]

omit [DecidableEq T] in
/-- The end of a check leaves the free queue alone. -/
theorem checked_freeSlots (s : State T) (pos x r : Nat) :
    (((s.setRemaining x r).copyBack x).advance pos x r).freeSlots = s.freeSlots := by
  have hmove : ((s.setRemaining x r).advance pos x r).freeSlots = s.freeSlots := by
    unfold State.advance State.setPc
    by_cases hr : r = 0 <;> simp only [hr, if_true, if_false] <;> rfl
  rw [(sameOwners_advance (s.setRemaining x r) pos x r).free, hmove]

/-! ## The three steps of the cycle -/

omit [DecidableEq T] in
/-- The head of the free queue is handed out. -/
theorem Owned.phase_allocate {s s' : State T} (h : Owned s) {x : Nat} {rest : List Nat}
    (hfree : s.freeSlots = x :: rest) (hrest : s'.freeSlots = rest)
    (hpoll : s'.poller = s.poller) : s'.phase = Function.update s.phase x .allocated := by
  have hx : x ∈ s.freeSlots := by
    rw [hfree]
    exact List.mem_cons_self ..
  have hnd : x ∉ rest := by
    have := h.parts.nodup .free
    rw [show s.holds .free = x :: rest from hfree] at this
    exact (List.nodup_cons.mp this).1
  have hnc : s.poller.completeRanges.head? ≠ some x := by
    intro hhead
    exact h.not_free (p := .complete) (List.mem_of_mem_head? hhead) (by simp) hx
  funext y
  unfold State.phase
  rw [hrest, hpoll]
  by_cases hyx : y = x
  · subst hyx
    rw [Function.update_self, if_neg hnd, if_neg fun hc => hnc hc.2]
  · rw [Function.update_of_ne hyx, hfree]
    simp only [List.mem_cons, hyx, false_or]

omit [DecidableEq T] in
theorem mem_complete {s : State T} {x : Nat} {rest : List Nat}
    (hc : s.poller.completeRanges = x :: rest) : x ∈ s.holds .complete := by
  show x ∈ s.poller.completeRanges
  rw [hc]
  exact List.mem_cons_self ..

omit [DecidableEq T] in
theorem Owned.phase_complete {s : State T} (h : Owned s) {x : Nat} {rest : List Nat}
    (hpc : s.poller.pc = .completing) (hc : s.poller.completeRanges = x :: rest) :
    (s.setPc .freeing).phase = Function.update s.phase x .completed := by
  funext y
  unfold State.phase State.setPc
  by_cases hyx : y = x
  · subst hyx
    rw [Function.update_self, if_neg (h.not_free (mem_complete hc) (by simp)), hc]
    simp
  · rw [Function.update_of_ne hyx]
    simp [hc, hpc, Ne.symm hyx]

omit [DecidableEq T] in
theorem Owned.phase_free {s : State T} (h : Owned s) {x : Nat} {rest : List Nat}
    (hpc : s.poller.pc = .freeing) (hc : s.poller.completeRanges = x :: rest) :
    ({ s.free x with poller := { s.poller with pc := .completing, completeRanges := rest } } :
      State T).phase = Function.update s.phase x .free := by
  have hpush : s.free x = { s with freeSlots := s.freeSlots ++ [x] } :=
    if_pos (h.free_push (mem_complete hc))
  funext y
  rw [hpush]
  unfold State.phase
  by_cases hyx : y = x
  · subst hyx
    rw [Function.update_self]
    simp
  · rw [Function.update_of_ne hyx]
    simp [hc, hpc, hyx, Ne.symm hyx]

/-- **What a step can do to the slots**: nothing, or one event of one slot at the
right point of its cycle. -/
theorem Step.slot_cases {s s' : State T} {es : List (Event T)} (h : Owned s)
    (hs : Step cfg s es s') :
    (s'.phase = s.phase ∧ ∀ e ∈ es, e.isSlotEvent = false) ∨
    (∃ x w, es = [.allocate x w] ∧ x < numEntries ∧ s.phase x = .free ∧
      s'.phase = Function.update s.phase x .allocated) ∨
    (∃ x w t, es = [.complete x w t] ∧ x < numEntries ∧ s.phase x = .allocated ∧
      s'.phase = Function.update s.phase x .completed) ∨
    (∃ x, es = [.free x] ∧ x < numEntries ∧ s.phase x = .completed ∧
      s'.phase = Function.update s.phase x .free) := by
  -- the poller moves between two points outside its freeing loop
  have outside : ∀ {s' : State T}, s'.freeSlots = s.freeSlots → s.poller.pc ≠ .freeing →
      s'.poller.pc ≠ .freeing → s'.phase = s.phase := by
    intro s' hf hpc hpc'
    exact State.phase_congr hf (iff_of_false hpc' hpc) fun habs => absurd habs hpc
  cases hs with
  | arrive segment id value hv =>
    exact Or.inl ⟨State.phase_congr rfl Iff.rfl fun _ => rfl, by simp [Event.isSlotEvent]⟩
  | notifyAsyncWait t segment id values ht hseg =>
    exact Or.inl ⟨State.phase_congr rfl Iff.rfl fun _ => rfl, by simp [Event.isSlotEvent]⟩
  | notifyAsyncWaitall t segment first num values ht hseg hpos hsmall =>
    exact Or.inl ⟨State.phase_congr rfl Iff.rfl fun _ => rfl, by simp [Event.isSlotEvent]⟩
  | notifyAsyncWaitallNone t ht => exact Or.inl ⟨rfl, by simp⟩
  | timeout hc hpc hnone =>
    exact Or.inl ⟨State.phase_congr (by simp) (setCheck_freeing hc) fun _ => by simp,
      by simp [Event.isSlotEvent]⟩
  | waitsome id hc hpc hid hval =>
    exact Or.inl ⟨State.phase_congr (by simp) (setCheck_freeing hc) fun _ => by simp, by simp⟩
  | @reset a c id value hc hpc hval =>
    refine Or.inl ⟨State.phase_congr ?_ ?_ fun _ => ?_, reset_isSlotEvent a c id value⟩
    · rw [State.setCheck_freeSlots]
      exact (sameOwners_take s c id value).free
    · rw [setCheck_freeing ((take_check s c id value a).trans hc), take_poller]
    · rw [State.setCheck_completeRanges, take_poller]
  | callReturn ht hpc hr =>
    exact Or.inl ⟨State.phase_congr rfl Iff.rfl fun _ => rfl, by simp [Event.isSlotEvent]⟩
  | callMissing ht hpc hr =>
    exact Or.inl ⟨State.phase_congr rfl Iff.rfl fun _ => rfl, by simp⟩
  | callIncrease ht =>
    exact Or.inl ⟨State.phase_congr rfl Iff.rfl fun _ => rfl, by simp [Event.isSlotEvent]⟩
  | @callAllocate t w r x rest ht hfree =>
    have hx : x ∈ s.freeSlots := by
      rw [hfree]
      exact List.mem_cons_self ..
    exact Or.inr (Or.inl ⟨x, w, rfl, h.parts.sub (p := .free) hx, if_pos hx,
      h.phase_allocate hfree rfl rfl⟩)
  | callEnqueue ht hcap =>
    exact Or.inl ⟨State.phase_congr rfl Iff.rfl fun _ => rfl, by simp⟩
  | pollStart hpc =>
    exact Or.inl ⟨outside rfl (by simp [hpc]) (by simp), by simp⟩
  | pollSegment hpc hseg =>
    exact Or.inl ⟨outside rfl (by simp [hpc]) (by simp [State.setPc]), by simp⟩
  | pollEnd hpc hseg =>
    exact Or.inl ⟨outside rfl (by simp [hpc]) (by simp [State.setPc]), by simp⟩
  | pollDequeue hpc hq =>
    exact Or.inl ⟨outside rfl (by simp [hpc]) (by simp [State.setPc]), by simp⟩
  | pollDequeued hpc =>
    exact Or.inl ⟨outside rfl (by simp [hpc]) (by simp [State.setPc]), by simp⟩
  | pollCheck hpc hx =>
    exact Or.inl ⟨outside rfl (by simp [hpc]) (by simp [State.setPc]), by simp⟩
  | @pollChecked pos x c hpc hret =>
    refine Or.inl ⟨outside (checked_freeSlots s pos x c.remaining) (by simp [hpc]) ?_,
      copyBack_isSlotEvent s x⟩
    unfold State.advance State.setPc
    by_cases hr : c.remaining = 0 <;> simp [hr]
  | pollScanned hpc hx =>
    exact Or.inl ⟨outside rfl (by simp [hpc]) (by simp [State.setPc]), by simp⟩
  | @pollComplete x rest hpc hc =>
    have hx := mem_complete hc
    refine Or.inr (Or.inr (Or.inl ⟨x, _, _, rfl, h.parts.sub hx, ?_, h.phase_complete hpc hc⟩))
    unfold State.phase
    rw [if_neg (h.not_free hx (by simp)), hpc]
    simp
  | @pollFree x rest hpc hc =>
    have hx := mem_complete hc
    refine Or.inr (Or.inr (Or.inr ⟨x, rfl, h.parts.sub hx, ?_, h.phase_free hpc hc⟩))
    unfold State.phase
    rw [if_neg (h.not_free hx (by simp)), hpc, hc]
    simp
  | pollNext hpc hc =>
    exact Or.inl ⟨outside rfl (by simp [hpc]) (by simp), by simp⟩

omit [DecidableEq T] in
theorem phaseOf_append (x : Nat) (tr es : List (Event T)) :
    phaseOf x (tr ++ es) = es.foldl (Phase.next x) (phaseOf x tr) :=
  List.foldl_append ..

omit [DecidableEq T] in
/-- Events outside the slot cycle leave every phase as it is. -/
theorem foldl_next_of_not_slot (x : Nat) :
    ∀ (es : List (Event T)) (p : Phase), (∀ e ∈ es, e.isSlotEvent = false) →
      es.foldl (Phase.next x) p = p
  | [], _, _ => rfl
  | e :: es, p, h => by
    have he : Phase.next x p e = p := by
      have := h e (List.mem_cons_self ..)
      cases e <;> first | rfl | exact absurd this (by simp [Event.isSlotEvent])
    rw [List.foldl_cons, he]
    exact foldl_next_of_not_slot x es p fun e he => h e (List.mem_cons_of_mem _ he)

omit [DecidableEq T] in
/-- A single slot event, seen from the trace and from the state. -/
theorem phase_single {tr : List (Event T)} {f : Nat → Phase} {e : Event T} {x : Nat} {p : Phase}
    (h : ∀ y, y < numEntries → phaseOf y tr = f y)
    (he : ∀ y q, Phase.next y q e = if x = y then p else q) :
    ∀ y, y < numEntries → phaseOf y (tr ++ [e]) = Function.update f x p y := by
  intro y hy
  rw [phaseOf_append, List.foldl_cons, List.foldl_nil, he]
  by_cases hxy : x = y
  · subst hxy
    rw [if_pos rfl, Function.update_self]
  · rw [if_neg hxy, Function.update_of_ne (Ne.symm hxy)]
    exact h y hy

/-- The phases read off the trace and off the state agree, and every slot follows
its cycle. -/
theorem phase_reach {tr : List (Event T)} {s : State T} (h : Reach (machine T cfg) tr s) :
    (∀ x, x < numEntries → phaseOf x tr = s.phase x) ∧ Causal FollowsCycle tr := by
  refine Reach.invariant
    (I := fun tr s => (∀ x, x < numEntries → phaseOf x tr = s.phase x) ∧ Causal FollowsCycle tr)
    ?_ ?_ h
  · intro s hs
    refine ⟨fun x hx => ?_, Causal.nil⟩
    have hfree : x ∈ s.freeSlots := by
      rw [hs.freeSlots]
      exact List.mem_range.mpr hx
    exact (if_pos hfree).symm
  · rintro tr es s s' hr ⟨hphase, hcausal⟩ hs
    rcases Step.slot_cases (owned_reach hr) hs with
      ⟨hsame, hes⟩ | ⟨x, w, rfl, hx, hp, hs'⟩ | ⟨x, w, t, rfl, hx, hp, hs'⟩ | ⟨x, rfl, hx, hp, hs'⟩
    · refine ⟨fun x hx => ?_, hcausal.append fun pre e post heq => ?_⟩
      · rw [phaseOf_append, foldl_next_of_not_slot x es _ hes, hsame]
        exact hphase x hx
      · have := hes e (heq ▸ List.mem_append_right _ (List.mem_cons_self ..))
        cases e <;> trivial
    · exact ⟨by rw [hs']; exact phase_single hphase fun y q => rfl,
        hcausal.snoc ((hphase x hx).trans hp)⟩
    · exact ⟨by rw [hs']; exact phase_single hphase fun y q => rfl,
        hcausal.snoc ((hphase x hx).trans hp)⟩
    · exact ⟨by rw [hs']; exact phase_single hphase fun y q => rfl,
        hcausal.snoc ((hphase x hx).trans hp)⟩

/-! ## The account of the pool -/

/-- **Ownership and capacity of waiting ranges.** In every reachable state each
pool slot is at exactly one place, and there once; a range in a queue or list
belongs to that segment and is missing between one and all of its notifications,
a range in `completeRanges` is missing none; `complete()` runs exactly once per
allocation; and neither the push of `free()` nor the push of `enqueue()` can
fail, so no caller spins with the queue's lock held. -/
theorem range_ownership {tr : List (Event T)} {s : State T} (h : Reach (machine T cfg) tr s) :
    (∀ x, x < numEntries → ∃! p : Place T, x ∈ s.holds p) ∧
    (∀ p : Place T, (s.holds p).Nodup ∧ ∀ x ∈ s.holds p, x < numEntries) ∧
    (∀ g x, x ∈ s.queues g ∨ x ∈ s.lists g →
      (s.objects x).segment = g ∧ 1 ≤ (s.objects x).remaining ∧
        (s.objects x).remaining ≤ (s.objects x).numIds) ∧
    (∀ x ∈ s.poller.completeRanges, (s.objects x).remaining = 0) ∧
    Causal FollowsCycle tr ∧
    (∀ x ∈ s.poller.completeRanges, s.freeSlots.length < numEntries) ∧
    (∀ t g x, s.calls t = .enqueue g x → (s.queues g).length < wrQueueCapacity) := by
  have ho := owned_reach h
  refine ⟨?_, ?_, ?_, ho.done, (phase_reach h).2, fun x hx => ho.free_push hx, ?_⟩
  · intro x hx
    obtain ⟨p, hp⟩ := ho.parts.cover hx
    exact ⟨p, hp, fun q hq => ho.parts.unique hq hp⟩
  · exact fun p => ⟨ho.parts.nodup p, fun x hx => ho.parts.sub hx⟩
  · intro g x hx
    have := ho.held g x (Or.inr hx)
    exact ⟨this.segment, this.pos, this.bound⟩
  · intro t g x ht
    have hlen : (s.queues g).length < numEntries :=
      ho.parts.length_lt (p := .hand t) (q := .queue g) (mem_hand ht) (by simp)
    have hcap : numEntries ≤ wrQueueCapacity := by decide
    omega

/-- One segment, one queue, 8-bit ids. -/
def oneSegment : Limits := ⟨1, 1, 8, 8⟩

/-- The pool hands out slot 0 first. -/
theorem range_numEntries : ∃ rest, List.range numEntries = 0 :: rest :=
  ⟨_, List.range_succ_eq_map (n := 63999)⟩

/-- A step of a check that the poller makes. -/
def Event.polls : Event T → Bool
  | .timeout .poller _ | .reset .poller _ _ _ => true
  | _ => false

/-- A guard that only restricts the checks of the poller. -/
def Unpolled (C : Guard (State T) (Event T)) : Prop :=
  ∀ tr s es, (∀ e ∈ es, e.polls = false) → C tr s es

omit [DecidableEq T] in
theorem unpolled_free : Unpolled (T := T) Guard.free := fun _ _ _ _ => trivial

/-- The first wait of a fresh library finds nothing and takes slot 0. -/
theorem reach_hand {C : Guard (State Unit) (Event Unit)} (hC : Unpolled C) (stale : Nat)
    (values : Option Nat) :
    ∃ tr s, ReachUnder (machine Unit oneSegment) C tr s ∧ s.calls () = .enqueue 0 0 ∧
      s.objects 0 = { op := 0, segment := 0, firstId := 0, numIds := 1, notifiedValues := values,
                      notifiedValue := stale, remaining := 1, task := () } ∧
      s.queues = (fun _ => []) ∧ s.lists = (fun _ => []) ∧ s.poller = ⟨.idle, 0, []⟩ ∧
      s.notifications = (fun _ => 0) ∧ s.nextOp = 1 := by
  obtain ⟨rest, hrest⟩ := range_numEntries
  have h₀ : ReachUnder (machine Unit oneSegment) C [] (State.fresh (0 :: rest) stale) :=
    .init (initial_fresh hrest.symm stale)
  have h₁ := h₀.step (Step.notifyAsyncWait () 0 0 values rfl Nat.one_pos)
    (hC _ _ _ (by simp [Event.polls]))
  have h₂ := h₁.step (Step.timeout (a := .task ()) rfl rfl fun _ _ => rfl)
    (hC _ _ _ (by simp [Event.polls]))
  have h₃ := h₂.step (Step.callMissing (t := ()) rfl rfl Nat.one_ne_zero) (hC _ _ _ (by simp))
  have h₄ := h₃.step (Step.callIncrease (t := ()) rfl) (hC _ _ _ (by simp [Event.polls]))
  have h₅ := h₄.step (Step.callAllocate (t := ()) rfl rfl) (hC _ _ _ (by simp [Event.polls]))
  exact ⟨_, _, h₅, rfl, rfl, rfl, rfl, rfl, rfl, rfl⟩

/-- The poller's check of the first wait of a fresh library. -/
def firstCheck (values : Option Nat) : Check :=
  ⟨⟨0, 0, 0, 1, values⟩, .one, .member 0, 1, .waitsome⟩

/-- The first range of a fresh library, on its way to the poller's first check. -/
theorem reach_first_check {C : Guard (State Unit) (Event Unit)} (hC : Unpolled C) (stale : Nat)
    (values : Option Nat) :
    ∃ tr s, ReachUnder (machine Unit oneSegment) C tr s ∧
      s.poller.pc = .checking 0 0 (firstCheck values) ∧
      s.objects 0 = { (firstCheck values).wait with
        notifiedValue := stale, remaining := 1, task := () } ∧
      s.notifications = (fun _ => 0) ∧ s.calls () = .idle ∧ s.nextOp = 1 := by
  obtain ⟨tr, s, hr, hcall, hobj, hqueues, hlists, hpoller, hnot, hop⟩ := reach_hand hC stale values
  have hquiet : ∀ tr s, C tr s [] := fun tr s => hC tr s [] (by simp)
  have h₁ := hr.step (Step.callEnqueue hcall (by rw [hqueues]; decide)) (hquiet _ _)
  have h₂ := h₁.step (Step.pollStart (by simp [State.setCall, hpoller])) (hquiet _ _)
  have h₃ := h₂.step (Step.pollSegment rfl Nat.one_pos) (hquiet _ _)
  have h₄ := h₃.step (Step.pollDequeue
    (by simp [State.setPc, hqueues] : _ = PollPc.dequeue (0 + 1))
    (by simp [State.setPc, hqueues] : _ = 0 :: [])) (hquiet _ _)
  have h₅ := h₄.step (Step.pollDequeued rfl) (hquiet _ _)
  have h₆ := h₅.step (Step.pollCheck (x := 0) (rfl : _ = PollPc.scan 0)
    (by simp [State.setPc, State.setCall, hlists])) (hquiet _ _)
  refine ⟨_, _, h₆, ?_, hobj, hnot, ?_, hop⟩
  · simp [State.setPc, State.setCall, State.beginCheck, hobj, firstCheck]
  · simp [State.setPc]

/-- The account at a state where a caller holds a range. -/
theorem range_ownership_hand :
    ∃ tr s, Reach (machine Unit oneSegment) tr s ∧ s.calls () = .enqueue 0 0 ∧
      (∃! p : Place Unit, 0 ∈ s.holds p) ∧ (s.queues 0).length < wrQueueCapacity := by
  obtain ⟨tr, s, hr, hcall, -⟩ := reach_hand unpolled_free 0 none
  have h := range_ownership hr
  exact ⟨tr, s, hr, hcall, h.1 0 (by decide), h.2.2.2.2.2.2 () 0 0 hcall⟩

end Tagaspi
