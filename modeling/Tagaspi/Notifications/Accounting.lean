import Tagaspi.Lib.Ledger
import Tagaspi.Notifications.Recycling

/-!
# Every notification is credited once

What the machine is for, apart from all its containers: a wait operation is a job
with a quota of `numIds` notifications (`waits`), carried first by the frame of
the calling task and then by a pool slot (`Carrier`). `State.ledger` forgets
everything else, and `ledger_reach` shows that every run of the machine is, seen
this way, a run of the abstract `Ledger`. The books of the ledger then say that
no notification is lost or counted twice (`notification_accounting`).
-/

namespace Tagaspi

open Lts

variable {T : Type}

/-- Wait operations as jobs that collect notification ids. -/
def waits : Jobs Wait Nat where
  key := Wait.op
  quota := Wait.numIds
  takes := Wait.covers

/-- What carries an unfinished operation. -/
inductive Carrier (T : Type) where
  /-- The stack frame of the calling task. -/
  | frame (t : T)
  /-- The `WaitingRange` in a pool slot. -/
  | slot (x : Nat)
deriving DecidableEq

/-- The operation a call is working on, with the number of missing notifications. -/
def Call.pending : Call → Option (Wait × Nat)
  | .checking c => some (c.wait, c.remaining)
  | .increase w r => some (w, r)
  | .allocate w r => some (w, r)
  | _ => none

/-- The operation of the range in slot `x`. While the poller is checking the range,
the number of missing notifications is in the local variables of the routine. -/
def State.pending (s : State T) (x : Nat) : Wait × Nat :=
  match s.poller.pc with
  | .checking _ y c =>
    if y = x then (c.wait, c.remaining) else ((s.objects x).toWait, (s.objects x).remaining)
  | _ => ((s.objects x).toWait, (s.objects x).remaining)

/-- The unfinished operations, by carrier. -/
def State.live (s : State T) : Carrier T → Option (Wait × Nat)
  | .frame t => (s.calls t).pending
  | .slot x => if x < numEntries ∧ s.phase x = .allocated then some (s.pending x) else none

/-- The machine as a ledger. -/
def State.ledger (s : State T) : Ledger (Carrier T) Wait := ⟨s.live, s.nextOp⟩

/-- What an event means to the ledger. -/
def ledgerEvent : Event T → Option (Ledger.Event Wait Nat)
  | .start _ w => some (.start w)
  | .reset _ w id v => if v ≠ 0 then some (.credit w id) else some (.miss w id)
  | .returned w => some (.finish w)
  | .complete _ w _ => some (.finish w)
  | _ => none

/-! ## Reading the carriers -/

theorem State.live_frame (s : State T) (t : T) : s.live (.frame t) = (s.calls t).pending := rfl

theorem State.live_slot {s : State T} {x : Nat} (h : x < numEntries ∧ s.phase x = .allocated) :
    s.live (.slot x) = some (s.pending x) :=
  if_pos h

theorem State.live_slot_none {s : State T} {x : Nat}
    (h : ¬ (x < numEntries ∧ s.phase x = .allocated)) : s.live (.slot x) = none :=
  if_neg h

theorem State.live_congr {s s' : State T} (hcalls : ∀ t, (s'.calls t).pending = (s.calls t).pending)
    (hphase : s'.phase = s.phase)
    (hpending : ∀ x, x < numEntries → s.phase x = .allocated → s'.pending x = s.pending x) :
    s'.live = s.live := by
  funext k
  cases k with
  | frame t => exact hcalls t
  | slot x =>
    by_cases hx : x < numEntries ∧ s.phase x = .allocated
    · rw [State.live_slot hx, State.live_slot (hphase ▸ hx), hpending x hx.1 hx.2]
    · rw [State.live_slot_none hx, State.live_slot_none (hphase ▸ hx)]

theorem State.pending_congr {s s' : State T} {x : Nat} (hpc : s'.poller.pc = s.poller.pc)
    (hw : (s'.objects x).toWait = (s.objects x).toWait)
    (hr : (s'.objects x).remaining = (s.objects x).remaining) : s'.pending x = s.pending x := by
  unfold State.pending
  rw [hpc, hw, hr]

/-- Outside a check the object of the slot tells the number. -/
theorem State.pending_object {s : State T} {x : Nat}
    (h : ∀ pos c, s.poller.pc ≠ .checking pos x c) :
    s.pending x = ((s.objects x).toWait, (s.objects x).remaining) := by
  unfold State.pending
  cases hpc : s.poller.pc with
  | checking pos y c =>
    have hyx : y ≠ x := by
      rintro rfl
      exact h pos c hpc
    exact if_neg hyx
  | _ => rfl

theorem State.pending_checking {s : State T} {pos x : Nat} {c : Check}
    (h : s.poller.pc = .checking pos x c) : s.pending x = (c.wait, c.remaining) := by
  unfold State.pending
  rw [h]
  exact if_pos rfl

/-- A slot that is in a queue, a list or the poller's check is allocated. -/
theorem Owned.phase_allocated {s : State T} (h : Owned s) {p : Place T} {x : Nat}
    (hx : x ∈ s.holds p) (hfree : p ≠ .free) (hcomplete : p ≠ .complete) :
    x < numEntries ∧ s.phase x = .allocated := by
  refine ⟨h.parts.sub hx, ?_⟩
  have hhead : s.poller.completeRanges.head? ≠ some x := by
    intro hhead
    exact h.parts.not_mem hx (Ne.symm hcomplete) (List.mem_of_mem_head? hhead)
  unfold State.phase
  rw [if_neg (h.not_free hx hfree), if_neg fun hc => hhead hc.2]

theorem Owned.checking_list {s : State T} (h : Owned s) {pos x : Nat} {c : Check}
    (hpc : s.poller.pc = .checking pos x c) : x ∈ s.holds (.list s.poller.seg) := by
  have hpoll := h.poll
  rw [State.PollOk, hpc] at hpoll
  exact List.mem_of_getElem? hpoll.1

variable [DecidableEq T] {cfg : Limits}

/-- A step without events of the slot cycle leaves the phases alone. -/
theorem Step.phase_eq {s s' : State T} {es : List (Event T)} (h : Owned s)
    (hs : Step cfg s es s') (hes : ∀ e ∈ es, e.isSlotEvent = false) : s'.phase = s.phase := by
  rcases Step.slot_cases h hs with
    ⟨hsame, -⟩ | ⟨x, w, rfl, -⟩ | ⟨x, w, t, rfl, -⟩ | ⟨x, rfl, -⟩
  · exact hsame
  all_goals
    have := hes _ (List.mem_singleton.mpr rfl)
    simp [Event.isSlotEvent] at this

theorem Step.phase_allocate {s s' : State T} {x : Nat} {w : Wait} (h : Owned s)
    (hs : Step cfg s [.allocate x w] s') :
    x < numEntries ∧ s.phase x = .free ∧ s'.phase = Function.update s.phase x .allocated := by
  rcases Step.slot_cases h hs with
    ⟨-, hes⟩ | ⟨y, w', hes, hy, hp, hs'⟩ | ⟨y, w', t', hes, -⟩ | ⟨y, hes, -⟩
  · exact absurd (hes _ (List.mem_singleton.mpr rfl)) (by simp [Event.isSlotEvent])
  · obtain ⟨rfl, rfl⟩ := Event.allocate.inj (List.singleton_injective hes)
    exact ⟨hy, hp, hs'⟩
  · simp at hes
  · simp at hes

theorem Step.phase_complete {s s' : State T} {x : Nat} {w : Wait} {t : T} (h : Owned s)
    (hs : Step cfg s [.complete x w t] s') :
    x < numEntries ∧ s.phase x = .allocated ∧ s'.phase = Function.update s.phase x .completed := by
  rcases Step.slot_cases h hs with
    ⟨-, hes⟩ | ⟨y, w', hes, -⟩ | ⟨y, w', t', hes, hy, hp, hs'⟩ | ⟨y, hes, -⟩
  · exact absurd (hes _ (List.mem_singleton.mpr rfl)) (by simp [Event.isSlotEvent])
  · simp at hes
  · obtain ⟨rfl, rfl, rfl⟩ := Event.complete.inj (List.singleton_injective hes)
    exact ⟨hy, hp, hs'⟩
  · simp at hes

theorem Step.phase_free {s s' : State T} {x : Nat} (h : Owned s)
    (hs : Step cfg s [.free x] s') :
    x < numEntries ∧ s.phase x = .completed ∧ s'.phase = Function.update s.phase x .free := by
  rcases Step.slot_cases h hs with
    ⟨-, hes⟩ | ⟨y, w', hes, -⟩ | ⟨y, w', t', hes, -⟩ | ⟨y, hes, hy, hp, hs'⟩
  · exact absurd (hes _ (List.mem_singleton.mpr rfl)) (by simp [Event.isSlotEvent])
  · simp at hes
  · simp at hes
  · obtain rfl := Event.free.inj (List.singleton_injective hes)
    exact ⟨hy, hp, hs'⟩

theorem setCheck_phase {s : State T} {a : Agent T} {c c' : Check} (hc : s.check a = some c) :
    (s.setCheck a c').phase = s.phase :=
  State.phase_congr (by simp) (setCheck_freeing hc) fun _ => by simp

/-- **Every running check works for exactly one carrier**, and what it does to its
locals is what happens to that carrier. -/
theorem Owned.carrier {s : State T} (h : Owned s) {a : Agent T} {c : Check}
    (hc : s.check a = some c) :
    ∃ k, s.live k = some (c.wait, c.remaining) ∧
      ∀ c' : Check, (s.setCheck a c').live =
        Function.update s.live k (some (c'.wait, c'.remaining)) := by
  cases a with
  | task t =>
    have hcall := check_task hc
    refine ⟨.frame t, by rw [State.live_frame, hcall]; rfl, fun c' => ?_⟩
    funext k
    by_cases hk : k = .frame t
    · subst hk
      rw [Function.update_self]
      show (Function.update s.calls t (.checking c') t).pending = _
      rw [Function.update_self]
      rfl
    · rw [Function.update_of_ne hk]
      cases k with
      | frame t' =>
        show (Function.update s.calls t (.checking c') t').pending = (s.calls t').pending
        rw [Function.update_of_ne fun heq => hk (by rw [heq])]
      | slot x => rfl
  | poller =>
    obtain ⟨pos, x, hpc⟩ := check_poller hc
    have hset := setCheck_poller hpc
    have hx := h.phase_allocated (h.checking_list hpc) (by simp) (by simp)
    refine ⟨.slot x, ?_, fun c' => ?_⟩
    · rw [State.live_slot hx, State.pending_checking hpc]
    · have hphase : (s.setCheck .poller c').phase = s.phase := setCheck_phase hc
      funext k
      cases k with
      | frame t => rw [Function.update_of_ne (by simp), hset]; rfl
      | slot y =>
        by_cases hyx : y = x
        · subst hyx
          rw [State.live_slot (hphase ▸ hx), Function.update_self, hset]
          exact congrArg some (State.pending_checking rfl)
        · have hpending : (s.setCheck .poller c').pending y = s.pending y := by
            rw [hset, State.pending_object, State.pending_object]
            · rfl
            · intro pos' c'' habs
              rw [hpc] at habs
              exact hyx (PollPc.checking.inj habs).2.1.symm
            · intro pos' c'' habs
              exact hyx (PollPc.checking.inj habs).2.1.symm
          rw [Function.update_of_ne (by simpa using hyx)]
          by_cases hy : y < numEntries ∧ s.phase y = .allocated
          · rw [State.live_slot hy, State.live_slot (hphase ▸ hy), hpending]
          · rw [State.live_slot_none hy, State.live_slot_none (hphase ▸ hy)]

omit [DecidableEq T] in
theorem take_nextOp (s : State T) (c : Check) (id v : Nat) :
    ((s.takeNotification c.wait.segment id).storeNotification c id v).nextOp = s.nextOp := by
  rcases State.storeNotification_cases (s.takeNotification c.wait.segment id) c id v with h | h
  · rw [h]
    rfl
  · rw [h, State.store_nextOp]
    rfl

omit [DecidableEq T] in
theorem take_notifications (s : State T) (c : Check) (id v : Nat) :
    ((s.takeNotification c.wait.segment id).storeNotification c id v).notifications =
      Function.update s.notifications (c.wait.segment, id) 0 := by
  rcases State.storeNotification_cases (s.takeNotification c.wait.segment id) c id v with h | h
  · rw [h]
    rfl
  · rw [h, State.store_notifications]
    rfl

omit [DecidableEq T] in
/-- Taking a notification changes no carrier by itself. -/
theorem take_live (s : State T) (c : Check) (id v : Nat) :
    ((s.takeNotification c.wait.segment id).storeNotification c id v).live = s.live := by
  have hsame := sameOwners_take s c id v
  refine State.live_congr (fun t => by rw [take_calls]) ?_ fun x _ _ => ?_
  · exact State.phase_congr hsame.free (by rw [take_poller]) fun _ => by rw [take_poller]
  · exact State.pending_congr (by rw [take_poller]) (hsame.wait x) (hsame.remaining x)

/-- What a reset does to the carriers. -/
theorem reset_live {s : State T} (h : Owned s) {a : Agent T} {c : Check} {id v : Nat}
    (hc : s.check a = some c) (hpc : c.pc = .reset id) :
    ∃ k r, c.remaining = r + 1 ∧ s.live k = some (c.wait, r + 1) ∧
      (((s.takeNotification c.wait.segment id).storeNotification c id v).setCheck a
        (c.afterReset v)).live =
          if v ≠ 0 then Function.update s.live k (some (c.wait, r)) else s.live := by
  have hok := h.check_ok hc
  have hpos : 0 < c.remaining := hok.pos (by rw [hpc]; exact CheckPc.noConfusion)
  obtain ⟨r, hr⟩ := Nat.exists_eq_succ_of_ne_zero (Nat.pos_iff_ne_zero.mp hpos)
  -- the check goes on in the state with the notification taken
  have hsame := sameOwners_take s c id v
  have htaken : Owned ((s.takeNotification c.wait.segment id).storeNotification c id v) := by
    refine h.same hsame ?_ ?_
    · rw [take_calls]
      exact h.calls
    · exact h.poll.congr (take_poller s c id v) hsame.lists fun _ x _ _ => hsame.wait x
  obtain ⟨k, hk, hset⟩ := htaken.carrier ((take_check s c id v a).trans hc)
  rw [take_live] at hk
  refine ⟨k, r, hr, by rw [hk, hr], ?_⟩
  rw [hset, take_live, Check.afterReset_wait, hok.afterReset_remaining hpc]
  by_cases hv : v ≠ 0
  · rw [if_pos hv, if_pos hv, hr]
    rfl
  · rw [if_neg hv, if_neg hv, ← hk, Function.update_eq_self]

/-! ## The machine refines the ledger -/

omit [DecidableEq T] in
theorem filterMap_writes (c : Check) (id v : Nat) :
    (c.writes id v : List (Event T)).filterMap ledgerEvent = [] := by
  rw [List.filterMap_eq_nil_iff]
  intro e he
  obtain ⟨b, -, -, rfl⟩ := mem_writes he
  rfl

omit [DecidableEq T] in
theorem filterMap_copyBackEvents (s : State T) (x : Nat) :
    (s.copyBackEvents x).filterMap ledgerEvent = [] := by
  rw [List.filterMap_eq_nil_iff]
  intro e he
  obtain ⟨-, -, rfl⟩ := mem_copyBackEvents he
  rfl

/-- Changing what one call works on changes one carrier. -/
theorem setCall_live (s : State T) (t : T) (c : Call) :
    (s.setCall t c).live = Function.update s.live (.frame t) c.pending := by
  funext k
  cases k with
  | frame t' =>
    by_cases ht : t' = t
    · subst ht
      rw [State.live_frame, State.setCall_self, Function.update_self]
    · rw [State.live_frame, State.setCall_of_ne _ ht, Function.update_of_ne (by simpa using ht),
        State.live_frame]
  | slot x =>
    rw [Function.update_of_ne (by simp)]
    rfl

/-- A call that goes on with the same operation leaves the carriers alone. -/
theorem setCall_live_same {s : State T} {t : T} {c : Call}
    (h : c.pending = (s.calls t).pending) : (s.setCall t c).live = s.live := by
  rw [setCall_live, h, ← State.live_frame, Function.update_eq_self]

/-- Allocating moves the operation from the frame of the caller to the slot. -/
theorem allocate_live {s s' : State T} (h : Owned s) {t : T} {w : Wait} {r x : Nat}
    {rest : List Nat} (ht : s.calls t = .allocate w r) (hfree : s.freeSlots = x :: rest)
    (hs : Step cfg s [.allocate x w] s')
    (heq : s' = { (s.construct x w r t).setCall t (.enqueue w.segment x) with
      freeSlots := rest }) :
    s.live (.slot x) = none ∧
      s'.live = Function.update (Function.update s.live (.frame t) none) (.slot x)
        (some (w, r)) := by
  have hxfree : x ∈ s.holds .free := by
    show x ∈ s.freeSlots
    rw [hfree]
    exact List.mem_cons_self ..
  have hnot : ∀ pos c, s.poller.pc ≠ .checking pos x c := by
    intro pos c hpc
    exact absurd (h.parts.unique (h.checking_list hpc) hxfree) (by simp)
  obtain ⟨hx, hold, hphase⟩ := Step.phase_allocate h hs
  refine ⟨State.live_slot_none fun hc => ?_, ?_⟩
  · rw [hold] at hc
    exact absurd hc.2 (by simp)
  · funext k
    cases k with
    | frame t' =>
      rw [Function.update_of_ne (by simp), State.live_frame, heq]
      by_cases htt : t' = t
      · subst htt
        rw [Function.update_self]
        show ((Function.update s.calls t' (.enqueue w.segment x)) t').pending = none
        rw [Function.update_self]
        rfl
      · rw [Function.update_of_ne (by simpa using htt), State.live_frame]
        show ((Function.update s.calls t (.enqueue w.segment x)) t').pending = _
        rw [Function.update_of_ne htt]
    | slot y =>
      by_cases hyx : y = x
      · subst hyx
        rw [Function.update_self, State.live_slot ⟨hx, by rw [hphase, Function.update_self]⟩,
          State.pending_object (by rw [heq]; exact hnot), heq]
        show some (((s.construct y w r t).objects y).toWait,
          ((s.construct y w r t).objects y).remaining) = some (w, r)
        rw [construct_self]
      · have hobj : s'.objects y = s.objects y := by
          rw [heq]
          exact construct_of_ne hyx
        have hpending : s'.pending y = s.pending y :=
          State.pending_congr (by rw [heq]; rfl) (by rw [hobj]) (by rw [hobj])
        have hsame : s'.phase y = s.phase y := by rw [hphase, Function.update_of_ne hyx]
        rw [Function.update_of_ne (by simpa using hyx), Function.update_of_ne (by simp)]
        by_cases hy : y < numEntries ∧ s.phase y = .allocated
        · rw [State.live_slot hy, State.live_slot (hsame ▸ hy), hpending]
        · rw [State.live_slot_none hy, State.live_slot_none (hsame ▸ hy)]

omit [DecidableEq T] in
/-- The poller moves between two points outside a check and touches no object. -/
theorem live_poller {s s' : State T} (hcalls : s'.calls = s.calls) (hphase : s'.phase = s.phase)
    (hobj : s'.objects = s.objects) (hpc : ∀ pos x c, s.poller.pc ≠ .checking pos x c)
    (hpc' : ∀ pos x c, s'.poller.pc ≠ .checking pos x c) : s'.live = s.live := by
  refine State.live_congr (fun t => by rw [hcalls]) hphase fun x _ _ => ?_
  rw [State.pending_object fun pos c => hpc pos x c, State.pending_object fun pos c => hpc' pos x c,
    hobj]

/-- A slot that has just been constructed, checked or completed: what the other
slots carry does not change. -/
theorem live_slot_update {s s' : State T} {x : Nat} {p : Option (Wait × Nat)}
    (hcalls : s'.calls = s.calls) (hphase : ∀ y, y ≠ x → s'.phase y = s.phase y)
    (hpending : ∀ y, y ≠ x → s'.pending y = s.pending y) (hx : s'.live (.slot x) = p) :
    s'.live = Function.update s.live (.slot x) p := by
  funext k
  by_cases hk : k = .slot x
  · subst hk
    rw [Function.update_self, hx]
  · rw [Function.update_of_ne hk]
    cases k with
    | frame t => rw [State.live_frame, State.live_frame, hcalls]
    | slot y =>
      have hyx : y ≠ x := fun heq => hk (by rw [heq])
      by_cases hy : y < numEntries ∧ s.phase y = .allocated
      · rw [State.live_slot hy, State.live_slot (hphase y hyx ▸ hy), hpending y hyx]
      · rw [State.live_slot_none hy, State.live_slot_none (hphase y hyx ▸ hy)]

/-- A freed slot carries nothing, before and after. -/
theorem free_live {s s' : State T} (h : Owned s) {x : Nat} (hpc : s.poller.pc = .freeing)
    (hs : Step cfg s [.free x] s') (hcalls : s'.calls = s.calls) (hobj : s'.objects = s.objects)
    (hpc' : s'.poller.pc = .completing) : s'.live = s.live := by
  obtain ⟨hx, hold, hphase⟩ := Step.phase_free h hs
  have hnone : s.live (.slot x) = none := by
    refine State.live_slot_none fun hcon => ?_
    rw [hold] at hcon
    exact absurd hcon.2 (by simp)
  have hnone' : s'.live (.slot x) = none := by
    refine State.live_slot_none fun hcon => ?_
    rw [hphase, Function.update_self] at hcon
    exact absurd hcon.2 (by simp)
  rw [live_slot_update hcalls ?_ ?_ hnone', ← hnone, Function.update_eq_self]
  · intro y hyx
    rw [hphase, Function.update_of_ne hyx]
  · intro y _
    rw [State.pending_object (by simp [hpc']), State.pending_object (by simp [hpc]), hobj]

omit [DecidableEq T] in
/-- The check of a range starts with the number the range has. -/
theorem beginCheck_pending {s : State T} (h : Owned s) {x : Nat}
    (hx : x ∈ s.lists s.poller.seg) :
    ((s.beginCheck x).wait, (s.beginCheck x).remaining) =
      ((s.objects x).toWait, (s.objects x).remaining) := by
  have hheld := h.held s.poller.seg x (Or.inr (Or.inr hx))
  unfold State.beginCheck
  by_cases hn : (s.objects x).numIds = 1
  · have := hheld.pos
    have := hheld.bound
    simp only [if_pos hn, Prod.mk.injEq, true_and]
    omega
  · simp only [if_neg hn]

omit [DecidableEq T] in
/-- After the check of a range its object has the number the routine returned. -/
theorem checked_object (s : State T) (pos x r y : Nat) :
    ((((s.setRemaining x r).copyBack x).advance pos x r).objects y).toWait =
        ((s.setRemaining x r).objects y).toWait ∧
      ((((s.setRemaining x r).copyBack x).advance pos x r).objects y).remaining =
        ((s.setRemaining x r).objects y).remaining := by
  have hsame := sameOwners_advance (s.setRemaining x r) pos x r
  rw [hsame.wait, hsame.remaining, State.advance_objects]
  exact ⟨rfl, rfl⟩

omit [DecidableEq T] in
theorem checked_pc (s : State T) (pos x r : Nat) :
    ∃ pos', (((s.setRemaining x r).copyBack x).advance pos x r).poller.pc = .scan pos' := by
  unfold State.advance State.setPc
  by_cases hr : r = 0
  · exact ⟨pos, by simp [hr]⟩
  · exact ⟨pos + 1, by simp [hr]⟩

omit [DecidableEq T] in
/-- The end of a check hands the number back to the object. -/
theorem checked_live {s : State T} (h : Owned s) {pos x : Nat} {c : Check}
    (hpc : s.poller.pc = .checking pos x c)
    (hphase : (((s.setRemaining x c.remaining).copyBack x).advance pos x c.remaining).phase =
      s.phase) :
    (((s.setRemaining x c.remaining).copyBack x).advance pos x c.remaining).live = s.live := by
  have hpoll := h.poll
  rw [State.PollOk, hpc] at hpoll
  obtain ⟨pos', hpc'⟩ := checked_pc s pos x c.remaining
  refine State.live_congr (fun t => ?_) hphase fun y _ _ => ?_
  · rw [State.advance_calls, State.copyBack_calls]
    rfl
  · obtain ⟨hw, hr⟩ := checked_object s pos x c.remaining y
    rw [State.pending_object (by simp [hpc']), hw, hr]
    by_cases hyx : y = x
    · subst hyx
      rw [setRemaining_self, State.pending_checking hpc, hpoll.2.1]
    · rw [setRemaining_of_ne hyx, State.pending_object]
      intro pos'' c' habs
      rw [hpc] at habs
      exact hyx (PollPc.checking.inj habs).2.1.symm

/-- What a step can do to the carriers. -/
inductive LiveStep (s : State T) : List (Event T) → State T → Prop where
  | silent {s' : State T} {es : List (Event T)} :
      s'.live = s.live → s'.nextOp = s.nextOp → es.filterMap ledgerEvent = [] → LiveStep s es s'
  | start {s' : State T} {t : T} {w : Wait} :
      s.live (.frame t) = none → w.op = s.nextOp →
      s'.live = Function.update s.live (.frame t) (some (w, w.numIds)) →
      s'.nextOp = s.nextOp + 1 → LiveStep s [.start t w] s'
  | reset {s' : State T} {a : Agent T} {c : Check} {id v r : Nat} {k : Carrier T} :
      s.check a = some c → c.wait.covers id → v = s.notifications (c.wait.segment, id) →
      s.live k = some (c.wait, r + 1) →
      s'.live = (if v ≠ 0 then Function.update s.live k (some (c.wait, r)) else s.live) →
      s'.nextOp = s.nextOp → s'.notifications (c.wait.segment, id) = 0 →
      LiveStep s (.reset a c.wait id v :: c.writes id v) s'
  | move {s' : State T} {x : Nat} {w : Wait} {r : Nat} {t : T} :
      s.live (.frame t) = some (w, r) → s.live (.slot x) = none →
      s'.live = Function.update (Function.update s.live (.frame t) none) (.slot x) (some (w, r)) →
      s'.nextOp = s.nextOp → LiveStep s [.allocate x w] s'
  | finish {s' : State T} {k : Carrier T} {w : Wait} {e : Event T} :
      s.live k = some (w, 0) → s'.live = Function.update s.live k none →
      s'.nextOp = s.nextOp → ledgerEvent e = some (.finish w) → LiveStep s [e] s'

/-- **What a step can do to the carriers**, one constructor per kind of step. -/
theorem live_step {s s' : State T} {es : List (Event T)} (h : Owned s)
    (hs : Step cfg s es s') : LiveStep s es s' := by
  have quiet : (∀ e ∈ es, e.isSlotEvent = false) → s'.phase = s.phase := Step.phase_eq h hs
  have hstep := hs
  cases hs with
  | arrive segment id value hv => exact .silent rfl rfl rfl
  | notifyAsyncWait t segment id values ht hseg =>
    refine .start ?_ rfl (setCall_live s t _) rfl
    rw [State.live_frame, ht]
    rfl
  | notifyAsyncWaitall t segment first num values ht hseg hpos hsmall =>
    refine .start ?_ rfl (setCall_live s t _) rfl
    rw [State.live_frame, ht]
    rfl
  | notifyAsyncWaitallNone t ht => exact .silent rfl rfl rfl
  | timeout hc hpc hnone =>
    obtain ⟨k, hk, hset⟩ := h.carrier hc
    refine .silent ?_ (by simp) rfl
    rw [hset, Check.afterTimeout_wait, Check.afterTimeout_remaining, ← hk, Function.update_eq_self]
  | waitsome id hc hpc hid hval =>
    obtain ⟨k, hk, hset⟩ := h.carrier hc
    refine .silent ?_ (by simp) rfl
    rw [hset, Check.afterWaitsome_wait, Check.afterWaitsome_remaining, ← hk,
      Function.update_eq_self]
  | @reset a c id value hc hpc hval =>
    obtain ⟨k, r, -, hk, hlive⟩ := reset_live (v := value) h hc hpc
    refine .reset hc ((h.check_ok hc).resets id hpc) hval.symm hk hlive ?_ ?_
    · rw [State.setCheck_nextOp, take_nextOp]
    · rw [State.setCheck_notifications, take_notifications, Function.update_self]
  | @callReturn t c ht hpc hr =>
    refine .finish (w := c.wait) ?_ (setCall_live s t _) rfl rfl
    rw [State.live_frame, ht, ← hr]
    rfl
  | callMissing ht hpc hr => exact .silent (setCall_live_same (by rw [ht]; rfl)) rfl rfl
  | callIncrease ht => exact .silent (setCall_live_same (by rw [ht]; rfl)) rfl rfl
  | @callAllocate t w r x rest ht hfree =>
    obtain ⟨hnone, hlive⟩ := allocate_live h ht hfree hstep rfl
    refine .move ?_ hnone hlive rfl
    rw [State.live_frame, ht]
    rfl
  | callEnqueue ht hcap => exact .silent (setCall_live_same (by rw [ht]; rfl)) rfl rfl
  | pollStart hpc =>
    exact .silent (live_poller rfl (quiet (by simp)) rfl (by simp [hpc]) (by simp)) rfl rfl
  | pollSegment hpc hseg =>
    exact .silent (live_poller rfl (quiet (by simp)) rfl (by simp [hpc]) (by simp [State.setPc]))
      rfl rfl
  | pollEnd hpc hseg =>
    exact .silent (live_poller rfl (quiet (by simp)) rfl (by simp [hpc]) (by simp [State.setPc]))
      rfl rfl
  | pollDequeue hpc hq =>
    exact .silent (live_poller rfl (quiet (by simp)) rfl (by simp [hpc]) (by simp [State.setPc]))
      rfl rfl
  | pollDequeued hpc =>
    exact .silent (live_poller rfl (quiet (by simp)) rfl (by simp [hpc]) (by simp [State.setPc]))
      rfl rfl
  | @pollCheck pos x hpc hx =>
    refine .silent (State.live_congr (fun _ => rfl) (quiet (by simp)) fun y _ _ => ?_) rfl rfl
    rw [State.pending_object (s := s) (by simp [hpc])]
    by_cases hyx : y = x
    · subst hyx
      rw [State.pending_checking rfl]
      exact beginCheck_pending h (List.mem_of_getElem? hx)
    · rw [State.pending_object]
      · rfl
      · intro pos' c habs
        exact hyx (PollPc.checking.inj habs).2.1.symm
  | @pollChecked pos x c hpc hret =>
    exact .silent (checked_live h hpc (quiet (copyBack_isSlotEvent s x))) (by simp)
      (filterMap_copyBackEvents s x)
  | pollScanned hpc hx =>
    exact .silent (live_poller rfl (quiet (by simp)) rfl (by simp [hpc]) (by simp [State.setPc]))
      rfl rfl
  | @pollComplete x rest hpc hc =>
    obtain ⟨hx, hold, hphase⟩ := Step.phase_complete h hstep
    have hdone : (s.objects x).remaining = 0 :=
      h.done x (by rw [hc]; exact List.mem_cons_self ..)
    refine .finish (k := .slot x) ?_ (live_slot_update rfl ?_ ?_ ?_) rfl rfl
    · rw [State.live_slot ⟨hx, hold⟩, State.pending_object (by simp [hpc]), hdone]
    · intro y hyx
      rw [hphase, Function.update_of_ne hyx]
    · intro y _
      rw [State.pending_object (by simp [State.setPc]), State.pending_object (by simp [hpc])]
      rfl
    · refine State.live_slot_none fun hcon => ?_
      rw [hphase, Function.update_self] at hcon
      exact absurd hcon.2 (by simp)
  | @pollFree x rest hpc hc =>
    have hpush : s.free x = { s with freeSlots := s.freeSlots ++ [x] } :=
      if_pos (h.free_push (by rw [hc]; exact List.mem_cons_self ..))
    exact .silent (free_live h hpc hstep (by rw [hpush]) (by rw [hpush]) rfl) (by rw [hpush]) rfl
  | pollNext hpc hc =>
    exact .silent (live_poller rfl (quiet (by simp)) rfl (by simp [hpc]) (by simp)) rfl rfl

omit [DecidableEq T] in
theorem State.ledger_eq {s : State T} {l : Carrier T → Option (Wait × Nat)} {n : Nat}
    (hl : s.live = l) (hn : s.nextOp = n) : s.ledger = ⟨l, n⟩ := by
  rw [State.ledger, hl, hn]

/-- Every step of the machine is a step of the ledger, or none. -/
theorem ledger_step {s s' : State T} {es : List (Event T)} (h : LiveStep s es s') :
    (s'.ledger = s.ledger ∧ es.filterMap ledgerEvent = []) ∨
      Ledger.Step waits s.ledger (es.filterMap ledgerEvent) s'.ledger := by
  cases h with
  | silent hl hn he => exact Or.inl ⟨State.ledger_eq hl hn, he⟩
  | start hk hw hl hn =>
    right
    rw [State.ledger_eq hl hn]
    exact .start (J := waits) (b := s.ledger) hk hw
  | @reset _ a c id v r k hc hcov hv hk hl hn hz =>
    right
    rw [State.ledger_eq hl hn]
    by_cases hv0 : v ≠ 0
    · have he : ledgerEvent (.reset a c.wait id v) = some (.credit c.wait id) := if_pos hv0
      rw [if_pos hv0, List.filterMap_cons_some he, filterMap_writes]
      exact .credit (J := waits) (b := s.ledger) hk hcov
    · have he : ledgerEvent (.reset a c.wait id v) = some (.miss c.wait id) := if_neg hv0
      rw [if_neg hv0, List.filterMap_cons_some he, filterMap_writes]
      exact .miss (J := waits) (b := s.ledger) hk hcov
  | move hk hx hl hn =>
    right
    rw [State.ledger_eq hl hn]
    exact .move (J := waits) (b := s.ledger) hk hx
  | finish hk hl hn he =>
    right
    rw [State.ledger_eq hl hn, List.filterMap_cons_some he]
    exact .finish (J := waits) (b := s.ledger) hk

/-- **The machine refines the ledger.** -/
theorem ledger_reach {tr : List (Event T)} {s : State T} (h : Reach (machine T cfg) tr s) :
    Reach (Ledger.spec (Carrier T) waits) (tr.filterMap ledgerEvent) s.ledger := by
  refine Reach.simulate State.ledger ledgerEvent ?_ ?_ h
  · intro s hs k
    cases k with
    | frame t =>
      show (s.calls t).pending = none
      rw [hs.calls t]
      rfl
    | slot x =>
      refine State.live_slot_none fun hx => ?_
      have hfree : x ∈ s.freeSlots := by
        rw [hs.freeSlots]
        exact List.mem_range.mpr hx.1
      rw [State.phase, if_pos hfree] at hx
      exact absurd hx.2 (by simp)
  · intro tr es s s' hr hs
    exact ledger_step (live_step (owned_reach hr) hs)

/-! ## The account of the notifications -/

/-- The notification an event credits to `w`: the id of a reset executed for `w`
that returned a nonzero value. -/
def Event.creditOf (w : Wait) : Event T → Option Nat
  | .reset _ w' id v => if w' = w ∧ v ≠ 0 then some id else none
  | _ => none

/-- The notifications credited to `w` along a trace. -/
def credits (w : Wait) (tr : List (Event T)) : List Nat := tr.filterMap (Event.creditOf w)

/-- The operation has completed: its call returned with nothing remaining, or the
poller called `complete()` on its range. -/
def Completed (w : Wait) (tr : List (Event T)) : Prop :=
  .returned w ∈ tr ∨ ∃ x t, Event.complete x w t ∈ tr

/-- The operation was called. -/
def Started (w : Wait) (tr : List (Event T)) : Prop := ∃ t, Event.start t w ∈ tr

/-- The order of the events of an operation: an operation resets only ids of its
own range, after its start, before its completion and while it is missing
something; it completes once, with all its notifications received. -/
def WaitsInOrder (pre : List (Event T)) : Event T → Prop
  | .start _ w => ¬ Started w pre
  | .reset _ w id _ => Started w pre ∧ ¬ Completed w pre ∧ w.covers id ∧
      (credits w pre).length < w.numIds
  | .returned w => Started w pre ∧ ¬ Completed w pre ∧ (credits w pre).length = w.numIds
  | .complete _ w _ => Started w pre ∧ ¬ Completed w pre ∧ (credits w pre).length = w.numIds
  | _ => True

section Reading

omit [DecidableEq T]

/-- The ledger's list of credits is the machine's. -/
theorem items_ledger (w : Wait) (tr : List (Event T)) :
    Ledger.items w (tr.filterMap ledgerEvent) = credits w tr := by
  unfold Ledger.items credits
  rw [List.filterMap_filterMap]
  congr 1
  funext e
  cases e with
  | reset a w' id v =>
    by_cases hv : v = 0
    · simp [ledgerEvent, hv, Event.creditOf, Ledger.Event.creditedTo]
    · by_cases hw : w' = w <;>
        simp [ledgerEvent, hv, hw, Event.creditOf, Ledger.Event.creditedTo]
  | _ => rfl

theorem start_ledger {w : Wait} {tr : List (Event T)} :
    .start w ∈ tr.filterMap ledgerEvent ↔ Started w tr := by
  rw [List.mem_filterMap]
  constructor
  · rintro ⟨e, he, heq⟩
    cases e with
    | start t w' =>
      obtain rfl : w' = w := by simpa [ledgerEvent] using heq
      exact ⟨t, he⟩
    | reset a w' id v => by_cases hv : v = 0 <;> simp [ledgerEvent, hv] at heq
    | _ => simp [ledgerEvent] at heq
  · rintro ⟨t, ht⟩
    exact ⟨_, ht, rfl⟩

theorem finish_ledger {w : Wait} {tr : List (Event T)} :
    .finish w ∈ tr.filterMap ledgerEvent ↔ Completed w tr := by
  rw [List.mem_filterMap]
  constructor
  · rintro ⟨e, he, heq⟩
    cases e with
    | returned w' =>
      obtain rfl : w' = w := by simpa [ledgerEvent] using heq
      exact Or.inl he
    | complete x w' t =>
      obtain rfl : w' = w := by simpa [ledgerEvent] using heq
      exact Or.inr ⟨x, t, he⟩
    | reset a w' id v => by_cases hv : v = 0 <;> simp [ledgerEvent, hv] at heq
    | _ => simp [ledgerEvent] at heq
  · rintro (h | ⟨x, t, h⟩)
    · exact ⟨_, h, rfl⟩
    · exact ⟨_, h, rfl⟩

/-- The order of the ledger's events, read on the machine's. -/
theorem waitsInOrder_of_ledger {tr : List (Event T)}
    (h : Causal (Ledger.InOrder waits) (tr.filterMap ledgerEvent)) : Causal WaitsInOrder tr := by
  refine h.of_filterMap.mono fun pre e he => ?_
  cases e with
  | start t w => exact fun hs => he (.start w) rfl (start_ledger.mpr hs)
  | reset a w id v =>
    by_cases hv : v ≠ 0
    · have := he (.credit w id) (if_pos hv)
      rw [Ledger.InOrder, start_ledger, finish_ledger, items_ledger] at this
      exact this
    · have := he (.miss w id) (if_neg hv)
      rw [Ledger.InOrder, start_ledger, finish_ledger, items_ledger] at this
      exact this
  | returned w =>
    have := he (.finish w) rfl
    rw [Ledger.InOrder, start_ledger, finish_ledger, items_ledger] at this
    exact this
  | complete x w t =>
    have := he (.finish w) rfl
    rw [Ledger.InOrder, start_ledger, finish_ledger, items_ledger] at this
    exact this
  | _ => trivial

end Reading

/-- The books of the ledger, for the machine. -/
theorem accounts_machine {tr : List (Event T)} {s : State T} (h : Reach (machine T cfg) tr s) :
    Ledger.Accounts waits (tr.filterMap ledgerEvent) s.ledger :=
  Ledger.accounts_reach (ledger_reach h)

omit [DecidableEq T] in
/-- An operation that misses nothing is only waiting to be reported: its check has
returned, or its range is in `completeRanges`. -/
theorem Owned.collected {s : State T} (h : Owned s) {k : Carrier T} {w : Wait}
    (hk : s.live k = some (w, 0)) :
    (∃ t c, k = .frame t ∧ s.calls t = .checking c ∧ c.pc = .returned) ∨
    (∃ x, k = .slot x ∧ (x ∈ s.poller.completeRanges ∨
      ∃ pos c, s.poller.pc = .checking pos x c ∧ c.pc = .returned)) := by
  cases k with
  | frame t =>
    left
    have hok := h.calls t
    rw [State.live_frame] at hk
    cases hcall : s.calls t with
    | checking c =>
      rw [hcall] at hk hok
      have hr : c.remaining = 0 := (Prod.mk.inj (Option.some.inj hk)).2
      refine ⟨t, c, rfl, hcall, ?_⟩
      by_contra hpc
      have := hok.pos hpc
      omega
    | increase w' r =>
      rw [hcall] at hk hok
      have hr : r = 0 := (Prod.mk.inj (Option.some.inj hk)).2
      exact absurd hok.1 (by omega)
    | allocate w' r =>
      rw [hcall] at hk hok
      have hr : r = 0 := (Prod.mk.inj (Option.some.inj hk)).2
      exact absurd hok.1 (by omega)
    | _ =>
      rw [hcall] at hk
      cases hk
  | slot x =>
    right
    refine ⟨x, rfl, ?_⟩
    by_cases hx : x < numEntries ∧ s.phase x = .allocated
    · rw [State.live_slot hx, Option.some.injEq] at hk
      by_cases hchk : ∃ pos c, s.poller.pc = .checking pos x c
      · obtain ⟨pos, c, hpc⟩ := hchk
        rw [State.pending_checking hpc] at hk
        have hr : c.remaining = 0 := (Prod.mk.inj hk).2
        have hpoll := h.poll
        rw [State.PollOk, hpc] at hpoll
        refine Or.inr ⟨pos, c, hpc, ?_⟩
        by_contra hret
        have := hpoll.2.2.pos hret
        omega
      · rw [State.pending_object fun pos c hpc => hchk ⟨pos, c, hpc⟩] at hk
        have hr : (s.objects x).remaining = 0 := (Prod.mk.inj hk).2
        -- a range that is still held misses something
        have hheld : ∀ g, ¬ ((∃ t, s.calls t = .enqueue g x) ∨ x ∈ s.queues g ∨ x ∈ s.lists g) := by
          intro g hg
          have := (h.held g x hg).pos
          omega
        obtain ⟨p, hp⟩ := h.parts.cover hx.1
        cases p with
        | free =>
          have hfree : s.phase x = .free := if_pos hp
          rw [hfree] at hx
          exact absurd hx.2 (by simp)
        | hand t =>
          have hmem : x ∈ (s.calls t).slots := hp
          cases hcall : s.calls t with
          | enqueue g y =>
            rw [hcall] at hmem
            obtain rfl : x = y := List.mem_singleton.mp hmem
            exact absurd (Or.inl ⟨t, hcall⟩) (hheld g)
          | _ =>
            rw [hcall] at hmem
            cases hmem
        | queue g => exact absurd (Or.inr (Or.inl hp)) (hheld g)
        | list g => exact absurd (Or.inr (Or.inr hp)) (hheld g)
        | complete => exact Or.inl hp
    · rw [State.live_slot_none hx] at hk
      cases hk

/-- **No notification is lost or counted twice.** After every run:

- an unfinished operation has been credited exactly the notifications it no longer
  misses, and sits in one carrier; a finished one has been credited all of them;
- an operation resets only ids of its range, only while it is missing something,
  and completes once; with its last credit the check returns, and nothing is left
  to do but to report the completion;
- a reset that returns a nonzero value takes that notification away and lowers the
  number of the operation that executed it by one, and of no other; a reset that
  returns 0 changes no operation's number. -/
theorem notification_accounting {tr : List (Event T)} {s : State T}
    (h : Reach (machine T cfg) tr s) :
    (∀ k w r, s.live k = some (w, r) →
      Started w tr ∧ ¬ Completed w tr ∧ (credits w tr).length + r = w.numIds ∧
        ∀ k' r', s.live k' = some (w, r') → k' = k) ∧
    (∀ w, Started w tr → (∃ k r, s.live k = some (w, r)) ∨
      (Completed w tr ∧ (credits w tr).length = w.numIds)) ∧
    Causal WaitsInOrder tr ∧
    (∀ k w, s.live k = some (w, 0) →
      (∃ t c, k = .frame t ∧ s.calls t = .checking c ∧ c.pc = .returned) ∨
      (∃ x, k = .slot x ∧ (x ∈ s.poller.completeRanges ∨
        ∃ pos c, s.poller.pc = .checking pos x c ∧ c.pc = .returned))) ∧
    (∀ es s', Step cfg s es s' → ∀ a w id v, Event.reset a w id v ∈ es →
      v = s.notifications (w.segment, id) ∧ s'.notifications (w.segment, id) = 0 ∧
      ∃ c k r, s.check a = some c ∧ c.wait = w ∧ s.live k = some (w, r + 1) ∧
        s'.live = if v ≠ 0 then Function.update s.live k (some (w, r)) else s.live) := by
  have hacc := accounts_machine h
  refine ⟨?_, ?_, waitsInOrder_of_ledger hacc.inOrder, fun k w => (owned_reach h).collected, ?_⟩
  · intro k w r hk
    obtain ⟨hstart, hfin, hbal⟩ := hacc.balance k w r hk
    rw [items_ledger] at hbal
    exact ⟨start_ledger.mp hstart, fun hc => hfin (finish_ledger.mpr hc), hbal,
      fun k' r' hk' => hacc.unique k' k w w r' r hk' hk rfl⟩
  · intro w hw
    rcases hacc.settled w (start_ledger.mpr hw) with hlive | ⟨hfin, hlen⟩
    · exact Or.inl hlive
    · rw [items_ledger] at hlen
      exact Or.inr ⟨finish_ledger.mp hfin, hlen⟩
  · intro es s' hs a w id v hmem
    cases live_step (owned_reach h) hs with
    | silent hl hn he =>
      rw [List.filterMap_eq_nil_iff] at he
      have := he _ hmem
      by_cases hv : v = 0 <;> simp [ledgerEvent, hv] at this
    | start hk hw hl hn => simp at hmem
    | @reset _ a' c id' v' r k hc hcov hv hk hl hn hz =>
      rcases mem_reset hmem with heq | heq
      · obtain ⟨rfl, rfl, rfl, rfl⟩ := Event.reset.inj heq
        exact ⟨hv, hz, c, k, r, hc, rfl, hk, hl⟩
      · cases heq
    | move hk hx hl hn => simp at hmem
    | finish hk hl hn he =>
      obtain rfl := List.mem_singleton.mp hmem
      by_cases hv : v = 0 <;> simp [ledgerEvent, hv] at he

/-- Two waits on one id race for its only notification: the poller, for the first one, and the
task, for the second one, have both found the id. -/
theorem reach_race :
    ∃ tr s, Reach (machine Unit oneSegment) tr s ∧
      s.poller.pc = .checking 0 0 ((firstCheck none).afterWaitsome 0) ∧
      s.calls () = .checking ((Check.notifyAsyncWait ⟨1, 0, 0, 1, none⟩).afterWaitsome 0) ∧
      s.notifications (0, 0) = 5 := by
  obtain ⟨tr, s, hr, hpc, -, hnot, hcall, hop⟩ := reach_first_check unpolled_free 0 none
  have h₁ := Reach.step hr (Step.arrive 0 0 5 (by decide))
  have h₂ := h₁.step (Step.notifyAsyncWait () 0 0 none hcall Nat.one_pos)
  have h₃ := h₂.step (Step.waitsome (a := .poller) (c := firstCheck none) 0
    (by simp [State.check, State.setCall, hpc]) rfl ⟨Nat.le_refl _, Nat.one_pos⟩
    (by simp [State.setCall, firstCheck]))
  have h₄ := h₃.step (Step.waitsome (a := .task ()) (c := .notifyAsyncWait ⟨1, 0, 0, 1, none⟩) 0
    (by simp [State.check, State.setCheck, State.setCall, hpc, State.newWait, hop]) rfl
    ⟨Nat.le_refl _, Nat.one_pos⟩ (by simp [State.setCall, Check.notifyAsyncWait]))
  refine ⟨_, _, h₄, ?_, State.setCheck_task .., ?_⟩
  · simp [State.setCheck, State.setCall, hpc]
  · simp [State.setCall]

/-- The poller takes the notification, and the reset of the task returns 0. -/
theorem notification_accounting_taken :
    ∃ tr s, Reach (machine Unit oneSegment) tr s ∧
      .reset .poller ⟨0, 0, 0, 1, none⟩ 0 5 ∈ tr ∧
      .reset (.task ()) ⟨1, 0, 0, 1, none⟩ 0 0 ∈ tr ∧
      (credits ⟨0, 0, 0, 1, none⟩ tr).length = 1 ∧ ¬ Completed ⟨0, 0, 0, 1, none⟩ tr ∧
      (credits ⟨1, 0, 0, 1, none⟩ tr).length = 0 ∧ ¬ Completed ⟨1, 0, 0, 1, none⟩ tr := by
  obtain ⟨tr, s, hr, hpc, hcall, hnot⟩ := reach_race
  obtain ⟨s₁, h₁, hpc₁, hcall₁, hnot₁⟩ : ∃ s₁, Reach (machine Unit oneSegment)
      (tr ++ [.reset .poller ⟨0, 0, 0, 1, none⟩ 0 5]) s₁ ∧
      s₁.poller.pc = .checking 0 0 (((firstCheck none).afterWaitsome 0).afterReset 5) ∧
      s₁.calls () = s.calls () ∧ s₁.notifications (0, 0) = 0 := by
    refine ⟨_, hr.step (Step.reset (a := .poller) (c := (firstCheck none).afterWaitsome 0)
      (by simp [State.check, hpc]) (show _ = CheckPc.reset 0 from rfl) hnot), ?_, ?_, ?_⟩
    · rw [setCheck_poller (by rw [take_poller, hpc])]
      rfl
    · rw [State.setCheck_poller_calls, take_calls]
    · rw [State.setCheck_notifications, take_notifications]
      exact Function.update_self ..
  rw [hcall] at hcall₁
  obtain ⟨s₂, h₂, hpc₂, hcall₂⟩ : ∃ s₂, Reach (machine Unit oneSegment)
      (tr ++ [.reset .poller ⟨0, 0, 0, 1, none⟩ 0 5] ++
        [.reset (.task ()) ⟨1, 0, 0, 1, none⟩ 0 0]) s₂ ∧
      s₂.poller.pc = s₁.poller.pc ∧ s₂.live (.frame ()) = some (⟨1, 0, 0, 1, none⟩, 1) := by
    refine ⟨_, h₁.step (Step.reset (a := .task ())
      (c := (Check.notifyAsyncWait ⟨1, 0, 0, 1, none⟩).afterWaitsome 0)
      (by rw [State.check, hcall₁]) (show _ = CheckPc.reset 0 from rfl) hnot₁),
      congrArg Poller.pc (take_poller ..), ?_⟩
    rw [State.live_frame, State.setCheck_task]
    rfl
  rw [hpc₁] at hpc₂
  have ho := owned_reach h₂
  have hslot := State.live_slot (ho.phase_allocated (ho.checking_list hpc₂) (by simp) (by simp))
  rw [State.pending_checking hpc₂] at hslot
  obtain ⟨hbooks, -⟩ := notification_accounting h₂
  obtain ⟨-, hopen, hlen, -⟩ := hbooks _ _ _ hslot
  obtain ⟨-, hopen', hlen', -⟩ := hbooks _ _ _ hcall₂
  exact ⟨_, _, h₂, by simp, by simp, hlen, hopen, Nat.succ.inj hlen', hopen'⟩

end Tagaspi
