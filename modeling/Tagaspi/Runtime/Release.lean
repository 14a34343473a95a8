import Tagaspi.Notifications.Liveness
import Tagaspi.Runtime.Events

/-!
# When a task is released

The tasking runtime releases the dependencies of a task when its body has finished and its
event counter is zero. This is what the task may rely on then (`task_release`): its RMA
operations are complete, its waits have completed, and nobody touches its counter any more.

- `State.taskOf`, `attributed_reach`: an unfinished wait is carried on behalf of the task that
  called it.
- `waits_reach`, `requestEvents_trace`: the two halves of a run of the runtime.
- `Released`, `released_step`: a task that is released stays so until it calls again.
-/

namespace Tagaspi

open Lts Containers

variable {T : Type}

/-! ## Whose waits -/

/-- The task that a carrier works for. -/
def State.taskOf (s : State T) : Carrier T → Option T
  | .frame t => some t
  | .slot x => s.owner x

/-- Every unfinished wait is carried on behalf of the task that called it. -/
def Attributed (tr : List (Event T)) (s : State T) : Prop :=
  ∀ k w r, s.live k = some (w, r) → ∀ t, Event.start t w ∈ tr → s.taskOf k = some t

theorem State.owner_of_live {s : State T} {x : Nat} {p : Wait × Nat}
    (h : s.live (.slot x) = some p) : s.owner x ≠ none := by
  by_cases hx : x < numEntries ∧ s.phase x = .allocated
  · rw [State.owner, if_pos hx.2]
    exact Option.some_ne_none _
  · rw [State.live_slot_none hx] at h
    cases h

theorem State.owner_of_dead {s : State T} {x : Nat} (hx : x < numEntries)
    (h : s.live (.slot x) = none) : s.owner x = none := by
  by_cases hp : s.phase x = .allocated
  · rw [State.live_slot ⟨hx, hp⟩] at h
    cases h
  · exact if_neg hp

section Attribution

variable [DecidableEq T] {cfg : Limits} {s s' : State T} {es tr : List (Event T)}

/-- A range that carries a wait before and after a step belongs to the same task. -/
theorem taskOf_step (h : Owned s) (hs : Step cfg s es s') {k : Carrier T} {p p' : Wait × Nat}
    (hk : s.live k = some p) (hk' : s'.live k = some p') : s'.taskOf k = s.taskOf k := by
  cases k with
  | frame t => rfl
  | slot x =>
    show s'.owner x = s.owner x
    have hbefore := State.owner_of_live hk
    have hafter := State.owner_of_live hk'
    cases task_step h hs with
    | silent ho => rw [ho]
    | increase => rfl
    | @allocate _ _ _ y _ _ _ hnone ho =>
      have hxy : x ≠ y := by
        rintro rfl
        exact hbefore hnone
      rw [ho, Function.update_of_ne hxy]
    | @complete y _ _ _ _ _ ho =>
      have hxy : x ≠ y := by
        rintro rfl
        rw [ho, Function.update_self] at hafter
        exact hafter rfl
      rw [ho, Function.update_of_ne hxy]

theorem attributed_step (hr : Reach (machine T cfg) tr s) (h : Attributed tr s)
    (hs : Step cfg s es s') : Attributed (tr ++ es) s' := by
  have hown := owned_reach hr
  have hacc := accounts_machine hr
  -- a wait that stays where it is
  have stay : ∀ {k w r r' t}, s.live k = some (w, r) → s'.live k = some (w, r') →
      Event.start t w ∈ tr → s'.taskOf k = some t := fun hk hk' ht =>
    (taskOf_step hown hs hk hk').trans (h _ _ _ hk _ ht)
  -- the wait that a call hands over to its range
  have handed : ∀ {x t₀ w r}, es = [Event.allocate x w] → s.live (.frame t₀) = some (w, r) →
      s.live (.slot x) = none → s'.live (.slot x) = some (w, r) → s'.owner x = some t₀ := by
    intro x t₀ w r hes hframe hnone hslot
    have hafter := State.owner_of_live hslot
    have hx : x < numEntries := by
      by_contra hx
      rw [State.live_slot_none fun hc => hx hc.1] at hslot
      cases hslot
    cases task_step hown hs with
    | silent ho =>
      rw [ho, State.owner_of_dead hx hnone] at hafter
      exact absurd rfl hafter
    | @allocate t₁ w₁ r₁ y _ hcall _ _ ho =>
      obtain ⟨rfl, rfl⟩ := Event.allocate.inj (List.singleton_injective hes)
      have hlive : s.live (.frame t₁) = some (w₁, r₁) := by
        rw [State.live_frame, hcall]
        rfl
      obtain rfl := Carrier.frame.inj (hacc.unique _ _ _ _ _ _ hlive hframe rfl)
      rw [ho, Function.update_self]
    | increase | complete => cases List.singleton_injective hes
  intro k w r hk t ht
  rw [List.mem_append] at ht
  cases live_step hown hs with
  | silent hl _ he =>
    rw [hl] at hk
    have hne : Event.start t w ∉ es := fun hmem => by
      cases (List.filterMap_eq_nil_iff.mp he) _ hmem
    exact stay hk (hl ▸ hk) (ht.resolve_right hne)
  | @start _ t₀ w₀ hnone hop hl _ =>
    have hold : ∀ {u}, Event.start u w₀ ∉ tr := fun hmem => by
      have hlt : w₀.op < s.nextOp := hacc.fresh w₀ (start_ledger.mpr ⟨_, hmem⟩)
      omega
    have hk' := hk
    rw [hl] at hk
    rcases update_cases hk with ⟨rfl, heq⟩ | ⟨-, hold'⟩
    · obtain ⟨rfl, -⟩ := Prod.mk.inj (Option.some.inj heq)
      have hnew := ht.resolve_left hold
      obtain ⟨rfl, -⟩ := Event.start.inj (List.mem_singleton.mp hnew)
      rfl
    · refine stay hold' hk' (ht.resolve_right fun hmem => ?_)
      obtain ⟨-, rfl⟩ := Event.start.inj (List.mem_singleton.mp hmem)
      obtain ⟨u, hu⟩ := start_ledger.mp (hacc.balance k w r hold').1
      exact hold hu
  | @reset _ a c id v r₀ k₀ _ _ _ hk₀ hl =>
    have hne : Event.start t w ∉ Event.reset a c.wait id v :: c.writes id v := fun hmem => by
      rcases mem_reset hmem with heq | heq <;> cases heq
    have ht := ht.resolve_right hne
    by_cases hv : v ≠ 0
    · have hk' := hk
      rw [hl, if_pos hv] at hk
      rcases update_cases hk with ⟨rfl, heq⟩ | ⟨-, hk⟩
      · obtain ⟨rfl, -⟩ := Prod.mk.inj (Option.some.inj heq)
        exact stay hk₀ hk' ht
      · exact stay hk hk' ht
    · have hk' := hk
      rw [hl, if_neg hv] at hk
      exact stay hk hk' ht
  | @move _ x w₀ r₀ t₀ hframe hnone hl _ =>
    have ht := ht.resolve_right (by simp)
    have hk' := hk
    rw [hl] at hk
    rcases update_cases hk with ⟨rfl, heq⟩ | ⟨-, hk⟩
    · obtain ⟨rfl, rfl⟩ := Prod.mk.inj (Option.some.inj heq)
      exact (handed rfl hframe hnone hk').trans (h _ _ _ hframe _ ht)
    · rcases update_cases hk with ⟨-, heq⟩ | ⟨-, hk⟩
      · cases heq
      · exact stay hk hk' ht
  | @finish _ k₀ w₀ e hk₀ hl _ he =>
    have hne : Event.start t w ∉ [e] := fun hmem => by
      obtain rfl := List.mem_singleton.mp hmem
      cases he
    have hk' := hk
    rw [hl] at hk
    rcases update_cases hk with ⟨-, heq⟩ | ⟨-, hk⟩
    · cases heq
    · exact stay hk hk' (ht.resolve_right hne)

/-- **An unfinished wait is carried on behalf of the task that called it.** -/
theorem attributed_reach (hr : Reach (machine T cfg) tr s) : Attributed tr s :=
  hr.invariant (I := fun tr s => Attributed tr s) (fun s hs k w r hk t ht => by cases ht)
    fun _ _ _ _ hr h hs => attributed_step hr h hs

/-- A task that holds no event holds no range. -/
theorem owner_ne_of_events {t : T} (h : s.waitEvents t = 0) {x : Nat}
    (hx : x < numEntries) : s.owner x ≠ some t := by
  intro howner
  have hsum : s.rangesOf t = 0 := Nat.eq_zero_of_add_eq_zero_right h
  unfold State.rangesOf at hsum
  rw [Finset.sum_eq_zero_iff] at hsum
  have := hsum x (Finset.mem_range.mpr hx)
  rw [if_pos howner] at this
  exact Nat.one_ne_zero this

/-- A task without a call and without waiting ranges waits for nothing. -/
theorem completed_of_idle (hr : Reach (machine T cfg) tr s) {t : T} (hcall : s.calls t = .idle)
    (hwait : s.waitEvents t = 0) {w : Wait} (hw : Event.start t w ∈ tr) :
    Completed w tr ∧ (credits w tr).length = w.numIds := by
  rcases (accounts_machine hr).settled w (start_ledger.mpr ⟨t, hw⟩) with
    ⟨k, r, hk⟩ | ⟨hfin, hlen⟩
  · exfalso
    have htask := attributed_reach hr k w r hk t hw
    cases k with
    | frame u =>
      obtain rfl := Option.some.inj htask
      have hk : s.live (.frame u) = some (w, r) := hk
      rw [State.live_frame, hcall] at hk
      cases hk
    | slot x =>
      have hk : s.live (.slot x) = some (w, r) := hk
      have hx : x < numEntries := by
        by_contra hx
        rw [State.live_slot_none fun hc => hx hc.1] at hk
        cases hk
      exact owner_ne_of_events hwait hx htask
  · rw [items_ledger] at hlen
    exact ⟨finish_ledger.mp hfin, hlen⟩

/-- A task whose waits have completed holds no event outside its calls. -/
theorem waitEvents_of_completed (hr : Reach (machine T cfg) tr s) {t : T}
    (hcall : s.calls t = .idle) (hall : ∀ w, Event.start t w ∈ tr → Completed w tr) :
    s.waitEvents t = 0 := by
  have hranges : s.rangesOf t = 0 := by
    refine Finset.sum_eq_zero fun x hx => if_neg fun howner => ?_
    have hphase : s.phase x = .allocated := by
      by_contra hphase
      rw [State.owner, if_neg hphase] at howner
      cases howner
    have hlive := State.live_slot ⟨Finset.mem_range.mp hx, hphase⟩
    obtain ⟨hstart, hfin, -⟩ := (accounts_machine hr).balance (.slot x) _ _ hlive
    obtain ⟨u, hu⟩ := start_ledger.mp hstart
    obtain rfl := Option.some.inj (howner.symm.trans (attributed_reach hr (.slot x) _ _ hlive u hu))
    exact hfin (finish_ledger.mpr (hall _ hu))
  unfold State.waitEvents
  rw [hranges, hcall]
  rfl

/-- A task that is in no call and starts none stays in no call. -/
theorem calls_idle_step (h : Owned s) {t : T} (hcall : s.calls t = .idle) (hs : Step cfg s es s')
    (hno : ∀ w, Event.start t w ∉ es) : s'.calls t = .idle := by
  rcases hs.call_cases h t with hsame | hmove
  · exact hsame.trans hcall
  · cases hmove with
    | start => exact absurd (List.mem_singleton.mpr rfl) (hno _)
    | check hc | returned hc | missing hc | increase hc | allocate hc | enqueue hc =>
      rw [hcall] at hc
      cases hc

/-- The events of a task change through its call or through `complete()`. -/
theorem effect_cases (hs : Step cfg s es s') {t : T} {e : Event T} (he : e ∈ es)
    (hne : e.effect t ≠ 0) : s.calls t ≠ .idle ∨ ∃ x w, es = [.complete x w t] := by
  cases hs with
  | @callIncrease t' w r hc =>
    obtain rfl := List.mem_singleton.mp he
    have ht : t' = t := by
      by_contra ht
      exact hne (if_neg ht)
    subst ht
    exact .inl (by rw [hc]; exact Call.noConfusion)
  | @pollComplete x rest hpc hc =>
    obtain rfl := List.mem_singleton.mp he
    have ht : (s.objects x).task = t := by
      by_contra ht
      exact hne (if_neg ht)
    exact .inr ⟨x, _, by rw [ht]⟩
  | reset =>
    rcases mem_reset he with rfl | rfl <;> exact absurd rfl hne
  | pollChecked =>
    obtain ⟨-, -, rfl⟩ := mem_copyBackEvents he
    exact absurd rfl hne
  | arrive | timeout | notifyAsyncWait | notifyAsyncWaitall | callReturn | callAllocate
  | pollFree =>
    obtain rfl := List.mem_singleton.mp he
    exact absurd rfl hne
  | _ => cases he

end Attribution

/-! ## The two halves of a run -/

/-- An event of the machine of the waits. -/
def RtEvent.waitEvent : RtEvent T → Option (Event T)
  | .wait e => some e
  | _ => none

/-- What the waits do in a run. -/
def waitTrace (tr : List (RtEvent T)) : List (Event T) := tr.filterMap RtEvent.waitEvent

theorem waitTrace_map (es : List (Event T)) : waitTrace (es.map RtEvent.wait) = es := by
  unfold waitTrace
  rw [List.filterMap_map]
  exact List.filterMap_some

theorem waitTrace_append (tr es : List (RtEvent T)) :
    waitTrace (tr ++ es) = waitTrace tr ++ waitTrace es :=
  List.filterMap_append ..

variable [DecidableEq T]

/-- The events that the RMA calls of task `t` take, less those they give back. -/
def RtEvent.taken (t : T) : RtEvent T → Int
  | .increase _ t' n => if t' = t then n else 0
  | .rollback _ t' n => if t' = t then -n else 0
  | _ => 0

/-- The events that the queue pollers give back to task `t`. -/
def RtEvent.given (t : T) : RtEvent T → Int
  | .completed t' => if t' = t then 1 else 0
  | _ => 0

/-- The event changes the counter of task `t`. -/
def RtEvent.touches (t : T) : RtEvent T → Prop
  | .increase _ t' _ | .rollback _ t' _ | .completed t' => t' = t
  | .wait (.increase t') | .wait (.complete _ _ t') => t' = t
  | _ => False

namespace Runtime

variable {cfg : Config} {r r' : Runtime T} {es tr : List (RtEvent T)}

/-- For the waits, a step of the runtime is a step of theirs, or none. -/
theorem waits_step (hs : Step cfg r es r') :
    (r'.waits = r.waits ∧ es.filterMap RtEvent.waitEvent = []) ∨
      Tagaspi.Step cfg.limits r.waits (es.filterMap RtEvent.waitEvent) r'.waits := by
  cases hs with
  | @wait ws s' hs' _ =>
    refine .inr ?_
    show Tagaspi.Step cfg.limits r.waits (waitTrace (ws.map RtEvent.wait)) s'
    rw [waitTrace_map]
    exact hs'
  | _ => exact .inl ⟨rfl, rfl⟩

/-- The waits of a run of the runtime are a run of their machine. -/
theorem waits_reach (hr : Reach (machine T cfg) tr r) :
    Reach (Tagaspi.machine T cfg.limits) (waitTrace tr) r.waits :=
  hr.simulate (N := Tagaspi.machine T cfg.limits) Runtime.waits RtEvent.waitEvent
    (fun _ (hi : Initial _) => hi.waits) fun _ _ _ _ _ hs => waits_step hs

/-- What a step of the RMA side does to the events of task `t`. -/
theorem requestEvents_step (hb : Balanced cfg r) (hs : Step cfg r es r') (t : T) :
    (r'.requestEvents cfg t : Int) =
      r.requestEvents cfg t + (es.map (RtEvent.taken t)).sum - (es.map (RtEvent.given t)).sum := by
  have hsurplus := ((balanced_step hb hs).surplus t).trans (hb.surplus t).symm
  unfold surplus at hsurplus
  -- a step outside the waits changes the count as it changes the counter
  have rma : r'.waits = r.waits → ∀ n : Int, r'.events t = r.events t + n →
      (r'.requestEvents cfg t : Int) = r.requestEvents cfg t + n := by
    intro hwaits n hevents
    rw [hwaits, hevents] at hsurplus
    generalize (r.waits.waitEvents t : Int) = w at hsurplus
    omega
  cases hs with
  | @wait ws s' hs' _ =>
    have hzero : ∀ f : RtEvent T → Int, (∀ e, f (.wait e) = 0) →
        ((ws.map RtEvent.wait).map f).sum = 0 := by
      intro f hf
      refine List.sum_eq_zero fun n hn => ?_
      rw [List.map_map, List.mem_map] at hn
      obtain ⟨e, -, rfl⟩ := hn
      exact hf e
    rw [hzero _ fun _ => rfl, hzero _ fun _ => rfl, Int.add_zero, Int.sub_zero]
    rfl
  | @increase t' id a hc =>
    rw [rma rfl _ (addEvents_events r t)]
    simp [RtEvent.taken, RtEvent.given]
  | @rollback t' id n hc =>
    rw [rma rfl _ (addEvents_events r t)]
    simp [RtEvent.taken, RtEvent.given]
  | @pollDecrease ins queue last n t' tags hins hp =>
    rw [rma rfl _ (addEvents_events r t)]
    by_cases ht : t' = t
    · simp only [List.map_cons, List.map_nil, List.sum_cons, List.sum_nil, RtEvent.taken,
        RtEvent.given, if_pos ht]
      omega
    · simp [RtEvent.taken, RtEvent.given, ht]
  | call | success =>
    rw [rma rfl 0 (Int.add_zero _).symm]
    simp [RtEvent.taken, RtEvent.given]
  | _ =>
    rw [rma rfl 0 (Int.add_zero _).symm]
    simp

/-- **The events of the RMA calls, over a run**: what the calls have taken and no poller has given
back. -/
theorem requestEvents_trace (hr : Reach (machine T cfg) tr r) (t : T) :
    (r.requestEvents cfg t : Int) =
      (tr.map (RtEvent.taken t)).sum - (tr.map (RtEvent.given t)).sum := by
  refine hr.invariant (I := fun tr (r : Runtime T) => (r.requestEvents cfg t : Int) =
    (tr.map (RtEvent.taken t)).sum - (tr.map (RtEvent.given t)).sum) (fun r hi => ?_) ?_
  · have hi : Initial r := hi
    have hb : Balanced cfg r := balanced_init hi
    have hb := hb.surplus t
    unfold surplus at hb
    rw [hi.events, waitEvents_init hi.waits] at hb
    simp only [List.map_nil, List.sum_nil]
    omega
  · intro tr es r r' hr ih hs
    rw [requestEvents_step (balanced_reach hr) hs, ih, List.map_append, List.map_append,
      List.sum_append, List.sum_append]
    omega

/-! ## Released tasks -/

/-- Task `t` is in no call, and its counter is zero. -/
structure Released (t : T) (r : Runtime T) : Prop where
  rma : r.rma t = .idle
  call : r.waits.calls t = .idle
  events : r.events t = 0

/-- The counter of a task, as the sum of what it counts. -/
theorem Balanced.events_eq (hb : Balanced cfg r) (t : T) :
    r.events t = (r.requestEvents cfg t + r.waits.waitEvents t : Nat) := by
  have h := hb.surplus t
  unfold Runtime.surplus at h
  generalize r.waits.waitEvents t = w at h ⊢
  omega

/-- Nothing is outstanding for a released task. -/
theorem Released.nothing {t : T} (h : Released t r) (hb : Balanced cfg r) :
    r.requestEvents cfg t = 0 ∧ r.waits.waitEvents t = 0 := by
  have hcount := hb.events_eq t
  rw [h.events] at hcount
  generalize r.waits.waitEvents t = w at hcount ⊢
  omega

/-- Task `t` calls neither an RMA function nor a wait. -/
def quiet (t : T) : Guard (Runtime T) (RtEvent T) := fun _ _ es =>
  (∀ id, RtEvent.call id t ∉ es) ∧ ∀ w, RtEvent.wait (.start t w) ∉ es

/-- **A released task stays released** until it calls, and nobody touches its counter. -/
theorem released_step (hb : Balanced cfg r) {t : T} (h : Released t r) (hs : Step cfg r es r')
    (hquiet : quiet t tr r es) : Released t r' ∧ ∀ e ∈ es, ¬ e.touches t := by
  -- the counter cannot fall below zero
  have hpos : 0 ≤ r'.events t := by
    rw [(balanced_step hb hs).events_eq t]
    exact Int.natCast_nonneg _
  -- an RMA call that goes on is the call of another task
  have other : ∀ {t' : T} {c : RmaCall}, r.rma t' = c → c ≠ .idle → t ≠ t' := by
    rintro t' c hc hne rfl
    exact hne (hc.symm.trans h.rma)
  have goOn : ∀ {r₀ : Runtime T} {t' : T} {c : RmaCall}, r₀.rma = r.rma → t ≠ t' →
      (r₀.setRma t' c).rma t = .idle := fun hrma hne =>
    (Function.update_of_ne hne ..).trans ((congrFun hrma t).trans h.rma)
  cases hs with
  | @wait ws s' hs' _ =>
    have hevents : r.events t + effects t ws = effects t ws := by rw [h.events, Int.zero_add]
    have hnone : ∀ e ∈ ws, e.effect t = 0 := by
      intro e he
      by_contra hne
      rcases effect_cases hs' he hne with hcall | ⟨x, w, rfl⟩
      · exact hcall h.call
      · have hneg : effects t [Event.complete x w t] = -1 := by simp [effects, Event.effect]
        have hpos : 0 ≤ r.events t + effects t [Event.complete x w t] := hpos
        rw [hevents, hneg] at hpos
        omega
    refine ⟨⟨h.rma, calls_idle_step hb.owned h.call hs' fun w hw => ?_, ?_⟩, fun e he => ?_⟩
    · exact hquiet.2 w (List.mem_map_of_mem hw)
    · refine hevents.trans (List.sum_eq_zero fun n hn => ?_)
      obtain ⟨e, he, rfl⟩ := List.mem_map.mp hn
      exact hnone e he
    · obtain ⟨e, hmem, rfl⟩ := List.mem_map.mp he
      have hzero := hnone e hmem
      cases e with
      | increase t' | complete x w t' =>
        rintro rfl
        simp [Event.effect] at hzero
      | _ => exact id
  | @call t' a hc _ _ =>
    have hne : t ≠ t' := by
      rintro rfl
      exact hquiet.1 _ (List.mem_singleton.mpr rfl)
    exact ⟨⟨goOn rfl hne, h.call, h.events⟩, by simp [RtEvent.touches]⟩
  | @increase t' id a hc =>
    have hne := other hc RmaCall.noConfusion
    refine ⟨⟨goOn rfl hne, h.call, ?_⟩, by simp [RtEvent.touches, hne.symm]⟩
    exact (Function.update_of_ne hne ..).trans h.events
  | @rollback t' id n hc =>
    have hne := other hc RmaCall.noConfusion
    refine ⟨⟨goOn rfl hne, h.call, ?_⟩, by simp [RtEvent.touches, hne.symm]⟩
    exact (Function.update_of_ne hne ..).trans h.events
  | @submit t' id a hc | @post t' id left queue hc | @success t' id queue hc | @reject t' id a hc =>
    exact ⟨⟨goOn rfl (other hc RmaCall.noConfusion), h.call, h.events⟩,
      by simp [RtEvent.touches]⟩
  | @pollDecrease ins queue last n t' tags hins hp =>
    have hne : t ≠ t' := by
      rintro rfl
      have hpos : 0 ≤ Function.update r.events t (r.events t + -1) t := hpos
      rw [Function.update_self, h.events] at hpos
      omega
    refine ⟨⟨h.rma, h.call, ?_⟩, by simp [RtEvent.touches, hne.symm]⟩
    exact (Function.update_of_ne hne ..).trans h.events
  | external | complete | pollStart | pollEnter | pollEnd | pollWait | pollInvalid | pollNull
  | pollAgain | pollNext => exact ⟨⟨h.rma, h.call, h.events⟩, by simp⟩

/-- The same over a run. -/
theorem released_run (hr : Reach (machine T cfg) tr r) {t : T} (h : Released t r)
    (hrun : ReachUnder ((machine T cfg).after r) (quiet t) es r') :
    Released t r' ∧ ∀ e ∈ es, ¬ e.touches t := by
  refine hrun.invariant (M := (machine T cfg).after r)
    (I := fun es r' => Released t r' ∧ ∀ e ∈ es, ¬ e.touches t) ?_ ?_
  · rintro _ rfl
    exact ⟨h, fun e he => by cases he⟩
  · intro es es' r₁ r₂ hrun ⟨h₁, hes⟩ hs hquiet
    have hb := balanced_reach (hr.trans hrun.reach)
    obtain ⟨h₂, hes'⟩ := released_step hb h₁ hs hquiet
    exact ⟨h₂, fun e he => (List.mem_append.mp he).elim (hes e) (hes' e)⟩

/-- **What the release of a task means.** A task that is in no call and whose counter is zero has
nothing under way: every request that its RMA calls took an event for was reported complete and
given back, and every wait it called has completed, once, after `numIds` nonzero resets on ids of
its range. From then on, until it calls again, its counter is zero and no poller touches it: the
tasking runtime may dispose of the task. -/
theorem task_release (hr : Reach (machine T cfg) tr r) {t : T} (h : Released t r) :
    (r.outstanding cfg t = 0 ∧ (tr.map (RtEvent.taken t)).sum = (tr.map (RtEvent.given t)).sum) ∧
    (∀ w, Event.start t w ∈ waitTrace tr →
      completions w (waitTrace tr) = 1 ∧ (credits w (waitTrace tr)).length = w.numIds ∧
        ∀ id ∈ credits w (waitTrace tr), w.covers id) ∧
    ∀ es r', ReachUnder ((machine T cfg).after r) (quiet t) es r' →
      Released t r' ∧ ∀ e ∈ es, ¬ e.touches t := by
  obtain ⟨hrequests, hwaits⟩ := h.nothing (balanced_reach hr)
  have hrun := waits_reach hr
  refine ⟨⟨Nat.eq_zero_of_add_eq_zero_right hrequests, ?_⟩, fun w hw => ?_,
    fun es r' hlater => released_run hr h hlater⟩
  · have hsum := requestEvents_trace hr t
    rw [hrequests] at hsum
    omega
  · obtain ⟨hdone, hlen⟩ := completed_of_idle hrun h.call hwaits hw
    have horder := waitsInOrder_of_ledger (accounts_machine hrun).inOrder
    exact ⟨Nat.le_antisymm (completions_le_one horder) (completed_iff.mp hdone), hlen,
      fun id hid => credits_covered horder hid⟩

/-- **Nothing leaks.** When every task is released and the notifications poller is not in a
call, the library is as it was after its initialisation: every range is back in the pool, every
container is empty, and no request of a task is left in GASPI or in the batch of a poller. Only
the order of the pool may be another one. -/
theorem nothing_leaks (hr : Reach (machine T cfg) tr r) (hall : ∀ t, Released t r)
    (hpoll : r.waits.poller.pc = .idle) :
    r.waits.freeSlots.Perm (List.range numEntries) ∧
    (∀ g, r.waits.queues g = [] ∧ r.waits.lists g = []) ∧ r.waits.poller.completeRanges = [] ∧
    (∀ q ∈ r.requests, q.tag = none) ∧
    ∀ ins, ins < cfg.instances → ∀ tag ∈ (r.pollers ins).tags, tag = none := by
  have hb := balanced_reach hr
  have hpollOk := hb.owned.poll
  rw [State.PollOk, hpoll] at hpollOk
  -- a range outside the pool belongs to some task
  have hempty : ∀ p, p ≠ Place.free → r.waits.holds p = [] := by
    intro p hp
    by_cases hcomplete : p = .complete
    · rw [hcomplete]
      exact hpollOk
    · refine List.eq_nil_iff_forall_not_mem.mpr fun x hx => ?_
      obtain ⟨hlt, hphase⟩ := hb.owned.phase_allocated hx hp hcomplete
      exact owner_ne_of_events ((hall _).nothing hb).2 hlt (if_pos hphase)
  have hnone : ∀ t, r.outstanding cfg t = 0 := fun t =>
    Nat.eq_zero_of_add_eq_zero_right ((hall t).nothing hb).1
  refine ⟨hb.owned.parts.perm_range hempty, fun g => ⟨hempty (.queue g) (by simp),
    hempty (.list g) (by simp)⟩, hpollOk, fun q hq => ?_, fun ins hins tag htag => ?_⟩
  · cases htag : q.tag with
    | none => rfl
    | some t =>
      have hcount := Nat.eq_zero_of_add_eq_zero_right (hnone t)
      rw [List.count_eq_zero] at hcount
      exact absurd (List.mem_map.mpr ⟨q, hq, htag⟩) hcount
  · cases tag with
    | none => rfl
    | some t =>
      have hsum := Nat.eq_zero_of_add_eq_zero_left (hnone t)
      unfold polledOf at hsum
      rw [Finset.sum_eq_zero_iff] at hsum
      have hcount := hsum ins (Finset.mem_range.mpr hins)
      rw [List.count_eq_zero] at hcount
      exact absurd htag hcount

/-- A guard on what the waits do. -/
def waitGuard (C : Guard (State T) (Event T)) : Guard (Runtime T) (RtEvent T) :=
  fun tr r es => C (waitTrace tr) r.waits (waitTrace es)

/-- Without RMA calls a run of the waits is a run of the runtime. -/
theorem wait_run {C : Guard (State T) (Event T)} (hidle : ∀ t, r.rma t = .idle)
    {ws : List (Event T)} {s' : State T}
    (hrun : ReachUnder ((Tagaspi.machine T cfg.limits).after r.waits) C ws s') :
    ∃ r', ReachUnder ((machine T cfg).after r) (waitGuard C) (ws.map .wait) r' ∧ r'.waits = s' ∧
      r'.rma = r.rma ∧ r'.requests = r.requests ∧ r'.pollers = r.pollers := by
  refine hrun.invariant (M := (Tagaspi.machine T cfg.limits).after r.waits)
    (I := fun ws s' => ∃ r', ReachUnder ((machine T cfg).after r) (waitGuard C) (ws.map .wait) r' ∧
      r'.waits = s' ∧ r'.rma = r.rma ∧ r'.requests = r.requests ∧ r'.pollers = r.pollers) ?_ ?_
  · rintro _ rfl
    exact ⟨r, .init rfl, rfl, rfl, rfl, rfl⟩
  · rintro ws es s₁ s₂ - ⟨r', hr', rfl, hrma, hrequests, hpollers⟩ hs hC
    rw [List.map_append]
    refine ⟨_, hr'.step (Step.wait hs fun t w _ => ?_) ?_, rfl, hrma, hrequests, hpollers⟩
    · rw [hrma]
      exact hidle t
    · rw [waitGuard, waitTrace_map, waitTrace_map]
      exact hC

/-- Without calls and ranges, no task holds an event. -/
theorem quiet_waitEvents {s : State Unit} (h : s.Quiet) (ho : Owned s) : s.waitEvents () = 0 := by
  have hempty : ∀ p, p ≠ Place.free → s.holds p = [] := by
    intro p hp
    cases p with
    | free => exact absurd rfl hp
    | hand t =>
      show (s.calls ()).slots = []
      rw [h.calls]
      rfl
    | queue g => exact h.queues g
    | list g => exact h.lists g
    | complete => exact h.complete
  have hranges : s.rangesOf () = 0 := by
    refine Finset.sum_eq_zero fun x hx => if_neg ?_
    have hfree : x ∈ s.holds .free := by
      rw [(ho.parts.perm_range hempty).mem_iff, List.mem_range]
      exact Finset.mem_range.mp hx
    have hphase : s.phase x = .free := if_pos hfree
    rw [State.owner, hphase]
    simp
  unfold State.waitEvents
  rw [hranges, h.calls]
  rfl

/-- The task has waited for a notification and written to a remote segment. -/
theorem released_one :
    ∃ tr r, Reach (machine Unit oneQueue) tr r ∧ Released () r ∧ r.waits.poller.pc = .idle ∧
      Event.start () oneValue ∈ waitTrace tr ∧ (tr.map (RtEvent.given ())).sum = 1 := by
  obtain ⟨s₀, s₁, ws, s, hi, -, hstart, hrun, -, hquiet, hpc⟩ := one_polled
  have hwaits : Reach ((Tagaspi.machine Unit oneQueue.limits).after (fresh s₀).waits)
      ([.start () oneValue] ++ ws) s :=
    ((Reach.init rfl).step hstart).trans hrun.reach
  obtain ⟨r, hr, hw, hrma, hrequests, hpollers⟩ :=
    wait_run (fun _ => rfl) hwaits
  have h₀ : Reach (machine Unit oneQueue) [] (fresh s₀) := .init (initial_started hi)
  obtain ⟨tr, h₁, hevents, hmem, hsum⟩ : ∃ tr, Reach (machine Unit oneQueue) tr r ∧
      r.events () = 0 ∧ Event.start () oneValue ∈ waitTrace tr ∧
      (tr.map (RtEvent.given ())).sum = 0 := by
    have hreach := h₀.trans hr.reach
    have hb := balanced_reach hreach
    refine ⟨_, hreach, ?_, ?_, ?_⟩
    · have hzero : r.requestEvents oneQueue () = 0 := by
        simp [requestEvents, outstanding, polledOf, hrma, hrequests, hpollers, fresh,
          QueuePoll.tags, RmaCall.events]
      rw [hb.events_eq, hzero, quiet_waitEvents (hw ▸ hquiet) hb.owned]
      rfl
    · rw [waitTrace_append, waitTrace_map]
      simp
    · refine List.sum_eq_zero fun n hn => ?_
      rw [List.nil_append, List.map_map, List.mem_map] at hn
      obtain ⟨e, -, rfl⟩ := hn
      rfl
  rw [← hw] at hquiet hpc
  -- a list of one element
  have h₂ := h₁.step (Step.call (t := ()) (by rw [hrma]; rfl) hquiet.calls (.writeList 1 0))
  have h₃ := h₂.step (Step.increase (t := ()) rfl)
  have h₄ := h₃.step (Step.submit (t := ()) rfl)
  have h₅ := h₄.step (Step.post (t := ()) rfl)
  have h₆ := h₅.step (Step.success (t := ()) rfl)
  obtain ⟨tr', r', h₆, hmem', hsum', hrma', hevents', hrequests', hpollers', hwaits'⟩ : ∃ tr' r',
      Reach (machine Unit oneQueue) tr' r' ∧ Event.start () oneValue ∈ waitTrace tr' ∧
      (tr'.map (RtEvent.given ())).sum = 0 ∧ r'.rma () = .idle ∧ r'.events () = 1 ∧
      r'.requests = [⟨0, some (), false⟩] ∧ r'.pollers 0 = .idle ∧ r'.waits = r.waits := by
    refine ⟨_, _, h₆, ?_, ?_, rfl, ?_, ?_, ?_, rfl⟩
    · simp only [waitTrace_append, List.mem_append, hmem, true_or]
    · simp [hsum, RtEvent.given]
    · show r.events () + 1 = 1
      rw [hevents]
      rfl
    · show r.requests ++ [_] = _
      rw [hrequests]
      rfl
    · show r.pollers 0 = _
      rw [hpollers]
      rfl
  have hins : 0 < oneQueue.instances := Nat.one_pos
  have hcompleted : r'.requests = [] ++ (⟨0, some (), false⟩ : Request Unit) :: [] := hrequests'
  have h₇ := h₆.step (Step.complete hcompleted)
  have h₈ := h₇.step (Step.pollStart hins hpollers')
  have h₉ := h₈.step (Step.pollEnter hins rfl Nat.one_pos)
  have h₁₀ := h₉.step (Step.pollWait hins rfl (.of_eq (List.append_nil _).symm)
    (Nat.le_of_ble_eq_true rfl) fun q hq => by
      obtain rfl := List.mem_singleton.mp hq
      exact ⟨rfl, rfl⟩)
  have h₁₁ := h₁₀.step (Step.pollDecrease hins rfl)
  refine ⟨_, _, h₁₁, ⟨hrma', ?_, ?_⟩, ?_, ?_, ?_⟩
  · show r'.waits.calls () = _
    rw [hwaits']
    exact hquiet.calls
  · show r'.events () + -1 = 0
    rw [hevents']
    rfl
  · show r'.waits.poller.pc = _
    rw [hwaits']
    exact hpc
  · simp only [waitTrace_append, List.mem_append, hmem', true_or]
  · simp [hsum', RtEvent.given]

/-- The task is released: the wait has completed. -/
theorem task_release_one :
    ∃ tr r, Reach (machine Unit oneQueue) tr r ∧ Released () r ∧
      completions oneValue (waitTrace tr) = 1 ∧ (tr.map (RtEvent.taken ())).sum = 1 := by
  obtain ⟨tr, r, hr, h, -, hmem, hgiven⟩ := released_one
  have hrelease := task_release hr h
  exact ⟨tr, r, hr, h, (hrelease.2.1 oneValue hmem).1, hrelease.1.2.trans hgiven⟩

/-- The range is back in the pool. -/
theorem nothing_leaks_one :
    ∃ tr r, Reach (machine Unit oneQueue) tr r ∧ Event.start () oneValue ∈ waitTrace tr ∧
      r.waits.freeSlots.Perm (List.range numEntries) := by
  obtain ⟨tr, r, hr, h, hpc, hmem, -⟩ := released_one
  exact ⟨tr, r, hr, hmem, (nothing_leaks hr (fun _ => h) hpc).1⟩

end Runtime

end Tagaspi
