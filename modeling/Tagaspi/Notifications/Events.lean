import Tagaspi.Notifications.Accounting

/-!
# The task events that waits hold

A wait that does not complete at once takes one event of its task, which the poller
gives back in `complete()`. In between the event belongs to the call, until the
range is constructed, and then to the range.

- `State.owner`: the task behind a range on which `complete()` was not called yet.
- `TaskStep`, `task_step`: what a step can do to the events of the tasks.
- `waitEvents_step`: whatever a step adds to or takes from the count of a task, the
  number of its ranges and calls changes by as much.
-/

namespace Tagaspi

open Lts Containers

variable {T : Type}

/-- The task of the range in slot `x`, until `complete()` is called on it. -/
def State.owner (s : State T) (x : Nat) : Option T :=
  if s.phase x = .allocated then some (s.objects x).task else none

/-- The call has taken an event and has no range yet. -/
def Call.events : Call → Nat
  | .allocate _ _ => 1
  | _ => 0

theorem State.owner_congr {s s' : State T} (hphase : s'.phase = s.phase)
    (htask : ∀ x, (s'.objects x).task = (s.objects x).task) : s'.owner = s.owner := by
  funext x
  unfold State.owner
  rw [hphase, htask]

variable [DecidableEq T] {cfg : Limits}

/-- What an event does to the event counter of task `t`. -/
def Event.effect (t : T) : Event T → Int
  | .increase t' => if t' = t then 1 else 0
  | .complete _ _ t' => if t' = t then -1 else 0
  | _ => 0

/-- What the events of a step do to it. -/
def effects (t : T) (es : List (Event T)) : Int := (es.map (Event.effect t)).sum

/-- What a step can do to the events of the tasks. -/
inductive TaskStep (s : State T) : List (Event T) → State T → Prop where
  | silent {es : List (Event T)} {s' : State T} :
      s'.owner = s.owner → (∀ t, (s'.calls t).events = (s.calls t).events) →
      (∀ t, effects t es = 0) → TaskStep s es s'
  | increase {t : T} {w : Wait} {r : Nat} :
      s.calls t = .increase w r →
      TaskStep s [.increase t] (s.setCall t (.allocate w r))
  | allocate {t : T} {w : Wait} {r x : Nat} {s' : State T} :
      s.calls t = .allocate w r → x < numEntries → s.owner x = none →
      s'.owner = Function.update s.owner x (some t) →
      s'.calls = Function.update s.calls t (.enqueue w.segment x) →
      TaskStep s [.allocate x w] s'
  | complete {x : Nat} {w : Wait} {t : T} {s' : State T} :
      x < numEntries → s.owner x = some t → s'.owner = Function.update s.owner x none →
      s'.calls = s.calls → TaskStep s [.complete x w t] s'

omit [DecidableEq T] in
/-- No step but the construction of a range changes the task of an object. -/
theorem checked_task (s : State T) (pos x r y : Nat) :
    ((((s.setRemaining x r).copyBack x).advance pos x r).objects y).task = (s.objects y).task := by
  rw [State.advance_objects]
  have hcopy : ∀ s' : State T, ((s'.copyBack x).objects y).task = (s'.objects y).task := by
    intro s'
    rcases s'.copyBack_cases x with hc | ⟨g, v, hc⟩
    · rw [hc]
    · rw [hc, State.store_task]
  rw [hcopy]
  by_cases hyx : y = x
  · subst hyx
    rw [setRemaining_self]
  · rw [setRemaining_of_ne hyx]

omit [DecidableEq T] in
theorem take_task (s : State T) (c : Check) (id v y : Nat) :
    ((((s.takeNotification c.wait.segment id).storeNotification c id v).objects y).task) =
      (s.objects y).task := by
  rcases (s.takeNotification c.wait.segment id).storeNotification_cases c id v with hc | hc
  · rw [hc]
    rfl
  · rw [hc, State.store_task]
    rfl

theorem setCall_events {s : State T} {t : T} {c : Call} (hc : c.events = (s.calls t).events)
    (u : T) : ((s.setCall t c).calls u).events = (s.calls u).events := by
  by_cases hu : u = t
  · subst hu
    rw [State.setCall_self, hc]
  · rw [State.setCall_of_ne s hu]

theorem setCheck_events {s : State T} {a : Agent T} {c c' : Check} (hc : s.check a = some c)
    (u : T) : ((s.setCheck a c').calls u).events = (s.calls u).events := by
  cases a with
  | task t => exact setCall_events (by rw [check_task hc]; rfl) u
  | poller =>
    obtain ⟨pos, x, hpc⟩ := check_poller hc
    simp only [State.setCheck, hpc]

theorem effects_writes (t : T) (c : Check) (id v : Nat) :
    effects t (c.writes id v : List (Event T)) = 0 := by
  refine List.sum_eq_zero fun n hn => ?_
  obtain ⟨e, he, rfl⟩ := List.mem_map.mp hn
  obtain ⟨a, -, -, rfl⟩ := mem_writes he
  rfl

theorem effects_copyBack (t : T) (s : State T) (x : Nat) :
    effects t (s.copyBackEvents x) = 0 := by
  refine List.sum_eq_zero fun n hn => ?_
  obtain ⟨e, he, rfl⟩ := List.mem_map.mp hn
  obtain ⟨-, -, rfl⟩ := mem_copyBackEvents he
  rfl

/-- **What a step can do to the events of the tasks.** -/
theorem task_step {s s' : State T} {es : List (Event T)} (h : Owned s) (hs : Step cfg s es s') :
    TaskStep s es s' := by
  have hstep := hs
  have quiet : (∀ e ∈ es, e.isSlotEvent = false) → s'.phase = s.phase := Step.phase_eq h hs
  -- a step of the poller that moves no range in or out of the pool
  have poll : (∀ e ∈ es, e.isSlotEvent = false) → s'.objects = s.objects → s'.calls = s.calls →
      (∀ t, effects t es = 0) → TaskStep s es s' := by
    intro hes hobj hcalls heff
    refine .silent (State.owner_congr (quiet hes) fun x => ?_) (fun t => ?_) heff
    · rw [hobj]
    · rw [hcalls]
  cases hs with
  | arrive segment id value hv => exact poll (by simp [Event.isSlotEvent]) rfl rfl fun _ => rfl
  | notifyAsyncWait t segment id values ht hseg =>
    exact .silent (State.owner_congr (quiet (by simp [Event.isSlotEvent])) fun _ => rfl)
      (setCall_events (by rw [ht]; rfl)) fun _ => rfl
  | notifyAsyncWaitall t segment first num values ht hseg hpos hsmall =>
    exact .silent (State.owner_congr (quiet (by simp [Event.isSlotEvent])) fun _ => rfl)
      (setCall_events (by rw [ht]; rfl)) fun _ => rfl
  | notifyAsyncWaitallNone t ht => exact .silent rfl (fun _ => rfl) fun _ => rfl
  | timeout hc hpc hnone =>
    refine .silent (State.owner_congr (quiet (by simp [Event.isSlotEvent])) fun x => ?_)
      (setCheck_events hc) fun _ => rfl
    rw [State.setCheck_objects]
  | waitsome id hc hpc hid hval =>
    refine .silent (State.owner_congr (quiet (by simp)) fun x => ?_) (setCheck_events hc)
      fun _ => rfl
    rw [State.setCheck_objects]
  | @reset a c id value hc hpc hval =>
    refine .silent (State.owner_congr (quiet (reset_isSlotEvent a c id value)) fun x => ?_)
      (fun t => ?_) fun t => ?_
    · rw [State.setCheck_objects, take_task]
    · rw [setCheck_events ((take_check s c id value a).trans hc), take_calls]
    · show (0 : Int) + effects t (c.writes id value) = 0
      rw [effects_writes, Int.add_zero]
  | callReturn ht hpc hr =>
    exact .silent (State.owner_congr (quiet (by simp [Event.isSlotEvent])) fun _ => rfl)
      (setCall_events (by rw [ht]; rfl)) fun _ => rfl
  | callMissing ht hpc hr =>
    exact .silent (State.owner_congr (quiet (by simp)) fun _ => rfl)
      (setCall_events (by rw [ht]; rfl)) fun _ => rfl
  | callIncrease ht => exact .increase ht
  | @callAllocate t w r x rest ht hfree =>
    obtain ⟨hx, hold, hphase⟩ := Step.phase_allocate h hstep
    refine .allocate ht hx ?_ (funext fun y => ?_) rfl
    · rw [State.owner, hold, if_neg (by simp)]
    · rw [State.owner, hphase]
      by_cases hyx : y = x
      · subst hyx
        rw [Function.update_self, Function.update_self, if_pos rfl]
        exact congrArg (fun o : WaitingRange T => some o.task) construct_self
      · rw [Function.update_of_ne hyx, Function.update_of_ne hyx, State.owner]
        exact if_congr Iff.rfl
          (congrArg (fun o : WaitingRange T => some o.task) (construct_of_ne hyx)) rfl
  | callEnqueue ht hcap =>
    exact .silent (State.owner_congr (quiet (by simp)) fun _ => rfl)
      (setCall_events (by rw [ht]; rfl)) fun _ => rfl
  | pollStart hpc => exact poll (by simp) rfl rfl fun _ => rfl
  | pollSegment hpc hseg => exact poll (by simp) rfl rfl fun _ => rfl
  | pollEnd hpc hseg => exact poll (by simp) rfl rfl fun _ => rfl
  | pollDequeue hpc hq => exact poll (by simp) rfl rfl fun _ => rfl
  | pollDequeued hpc => exact poll (by simp) rfl rfl fun _ => rfl
  | pollCheck hpc hx => exact poll (by simp) rfl rfl fun _ => rfl
  | @pollChecked pos x c hpc hret =>
    refine .silent (State.owner_congr (quiet (copyBack_isSlotEvent s x))
      (checked_task s pos x c.remaining)) (fun t => ?_) fun t => effects_copyBack t s x
    rw [State.advance_calls, State.copyBack_calls]
    rfl
  | pollScanned hpc hx => exact poll (by simp) rfl rfl fun _ => rfl
  | @pollComplete x rest hpc hc =>
    obtain ⟨hx, hold, hphase⟩ := Step.phase_complete h hstep
    refine .complete hx (if_pos hold) (funext fun y => ?_) rfl
    rw [State.owner, hphase]
    by_cases hyx : y = x
    · subst hyx
      rw [Function.update_self, Function.update_self, if_neg (by simp)]
    · rw [Function.update_of_ne hyx, Function.update_of_ne hyx]
      rfl
  | @pollFree x rest hpc hc =>
    obtain ⟨hx, hold, hphase⟩ := Step.phase_free h hstep
    refine .silent (funext fun y => ?_) (fun t => ?_) fun _ => rfl
    · unfold State.owner
      rw [hphase]
      by_cases hyx : y = x
      · subst hyx
        rw [Function.update_self, hold, if_neg (by simp), if_neg (by simp)]
      · rw [Function.update_of_ne hyx]
        exact if_congr Iff.rfl (by rw [State.free_objects]) rfl
    · exact congrArg (fun f => (f t).events) (State.free_calls s x)
  | pollNext hpc hc => exact poll (by simp) rfl rfl fun _ => rfl

/-! ## Counting -/

/-- The ranges of task `t` on which `complete()` was not called yet. -/
def State.rangesOf (s : State T) (t : T) : Nat :=
  ∑ x ∈ Finset.range numEntries, if s.owner x = some t then 1 else 0

theorem rangesOf_congr {s s' : State T} (ho : s'.owner = s.owner) (t : T) :
    s'.rangesOf t = s.rangesOf t := by
  unfold State.rangesOf
  rw [ho]

theorem rangesOf_update {s s' : State T} {x : Nat} {o : Option T} (hx : x < numEntries)
    (ho : s'.owner = Function.update s.owner x o) (t : T) :
    s'.rangesOf t + (if s.owner x = some t then 1 else 0) =
      s.rangesOf t + if o = some t then 1 else 0 := by
  unfold State.rangesOf
  rw [ho]
  exact sum_update (Finset.range numEntries) s.owner (fun o => if o = some t then 1 else 0)
    (Finset.mem_range.mpr hx) o

/-- The events of task `t` that its waits hold. -/
def State.waitEvents (s : State T) (t : T) : Nat := s.rangesOf t + (s.calls t).events

/-- **The events of a task follow its ranges and calls.** -/
theorem waitEvents_step {s s' : State T} {es : List (Event T)} (h : Owned s)
    (hs : Step cfg s es s') (t : T) :
    (s'.waitEvents t : Int) = s.waitEvents t + effects t es := by
  unfold State.waitEvents
  -- the sums range over the whole pool: keep them from being computed
  generalize hb : s'.rangesOf t = b
  generalize ha : s.rangesOf t = a
  have hnotask : ∀ u : T, ¬ (none = some u) := fun u hn => by cases hn
  cases task_step h hs with
  | silent ho hcalls heff =>
    have hab : b = a := hb.symm.trans ((rangesOf_congr ho t).trans ha)
    rw [hab, hcalls, heff, Int.add_zero]
  | @increase u w r hc =>
    have hab : b = a := hb.symm.trans ((rangesOf_congr rfl t).trans ha)
    rw [hab]
    by_cases hu : u = t
    · subst hu
      rw [State.setCall_self, hc]
      simp [effects, Event.effect, Call.events]
    · rw [State.setCall_of_ne s (Ne.symm hu)]
      simp [effects, Event.effect, hu]
  | @allocate u w r x _ hc hx hnone ho hcalls =>
    have hcount := rangesOf_update hx ho t
    have heff : effects t [Event.allocate x w] = 0 := rfl
    rw [hb, ha, hnone] at hcount
    rw [hcalls, heff, Int.add_zero]
    by_cases hu : u = t
    · subst hu
      rw [Function.update_self, hc]
      rw [if_neg (hnotask _), if_pos rfl, Nat.add_zero] at hcount
      rw [hcount]
      rfl
    · rw [Function.update_of_ne (Ne.symm hu)]
      rw [if_neg (hnotask _), if_neg (fun hn => hu (Option.some.inj hn)), Nat.add_zero,
        Nat.add_zero] at hcount
      rw [hcount]
  | @complete x w u _ hx hsome ho hcalls =>
    have hcount := rangesOf_update hx ho t
    rw [hb, ha, hsome] at hcount
    rw [hcalls]
    by_cases hu : u = t
    · subst hu
      rw [if_neg (hnotask _), if_pos rfl] at hcount
      have heff : effects u [Event.complete x w u] = -1 := by simp [effects, Event.effect]
      rw [heff]
      omega
    · rw [if_neg (hnotask _), if_neg (fun hn => hu (Option.some.inj hn)), Nat.add_zero,
        Nat.add_zero] at hcount
      have heff : effects t [Event.complete x w u] = 0 := by simp [effects, Event.effect, hu]
      rw [heff, hcount, Int.add_zero]

/-- At first no event is held. -/
theorem waitEvents_init {s : State T} (h : Initial s) (t : T) : s.waitEvents t = 0 := by
  have hranges : s.rangesOf t = 0 := by
    refine Finset.sum_eq_zero fun x hx => ?_
    have hfree : x ∈ s.freeSlots := by
      rw [h.freeSlots]
      exact List.mem_range.mpr (Finset.mem_range.mp hx)
    have hphase : s.phase x = .free := if_pos hfree
    have howner : s.owner x = none := by
      rw [State.owner, hphase]
      exact if_neg (by simp)
    rw [howner, if_neg (by simp)]
  unfold State.waitEvents
  rw [hranges, h.calls t]
  rfl

/-! ## Ranges in use and ranges in the hands of a call -/

/-- The ranges of task `t` that were enqueued and on which `complete()` was not called yet. -/
def State.waiting (s : State T) (t : T) : Nat :=
  ∑ x ∈ Finset.range numEntries, if s.owner x = some t ∧ x ∉ (s.calls t).slots then 1 else 0

/-- The call has taken an event and has not enqueued its range yet. -/
def Call.inCall : Call → Nat
  | .allocate _ _ | .enqueue _ _ => 1
  | _ => 0

/-- The range that a call holds counts for the call. -/
theorem waitEvents_eq {s : State T} (h : Owned s) (t : T) :
    s.waitEvents t = s.waiting t + (s.calls t).inCall := by
  by_cases hslots : (s.calls t).slots = []
  · have hsum : s.waiting t = s.rangesOf t := by
      refine Finset.sum_congr rfl fun x _ => if_congr ?_ rfl rfl
      rw [hslots]
      exact and_iff_left (List.not_mem_nil)
    have hcall : (s.calls t).inCall = (s.calls t).events := by
      cases hc : s.calls t with
      | enqueue g x =>
        rw [hc] at hslots
        cases hslots
      | _ => rfl
    unfold State.waitEvents
    rw [hsum, hcall]
  · obtain ⟨g, x, hc⟩ : ∃ g x, s.calls t = .enqueue g x := by
      cases hc : s.calls t with
      | enqueue g x => exact ⟨g, x, rfl⟩
      | _ =>
        rw [hc] at hslots
        exact absurd rfl hslots
    obtain ⟨hx, hphase⟩ := h.phase_allocated (mem_hand hc) (by simp) (by simp)
    have howner : s.owner x = some t := by
      rw [State.owner, if_pos hphase, h.hand t g x hc]
    -- without the range in hand, one less
    have hsum := sum_update (Finset.range numEntries) s.owner (fun o => if o = some t then 1 else 0)
      (Finset.mem_range.mpr hx) none
    have hrest : s.waiting t = ∑ y ∈ Finset.range numEntries,
        if Function.update s.owner x none y = some t then 1 else 0 := by
      refine Finset.sum_congr rfl fun y _ => if_congr ?_ rfl rfl
      rw [hc]
      by_cases hyx : y = x
      · subst hyx
        rw [Function.update_self]
        simp [Call.slots]
      · rw [Function.update_of_ne hyx]
        simp [Call.slots, hyx]
    rw [← hrest, howner, if_pos rfl, if_neg (by simp), Nat.add_zero] at hsum
    show s.rangesOf t + (s.calls t).events = _
    rw [hc]
    exact hsum.symm

end Tagaspi
