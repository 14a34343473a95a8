import Tagaspi.Notifications.Accounting

/-!
# What is written to the user's buffer

The buffer of an operation is written from three places: the initial check of the
caller, the poller's check of many ids, and, for a single id, the member
`_notifiedValue` that the poller copies back after its check.

- `Targets`: which pointer each running check was given, so that a write event is
  exactly a store to the user's memory (`Step.memory`).
- `WritesDelivered`: a write follows a reset that returned the value written.
  The copy of the single-id branch is made whatever the check found, so a poll that
  finds nothing writes whatever the recycled object held (`stale_value_written`).
- Runs in which the poller never comes back empty from a single id
  (`noFruitlessPoll`) only write delivered values (`buffer_written_by_delivery`).
-/

namespace Tagaspi

open Lts

variable {T : Type}

/-- An event of a check for `w`. -/
def Event.checks (w : Wait) : Event T → Bool
  | .timeout _ w' => w' = w
  | .reset _ w' _ _ => w' = w
  | .write w' _ _ => w' = w
  | _ => false

/-- The last thing a check for `w` did. -/
def lastCheck (w : Wait) (tr : List (Event T)) : Option (Event T) :=
  (tr.filter (Event.checks w)).getLast?

/-- A write goes to an entry of the buffer, right after the reset that returned the
nonzero value it stores. -/
def WritesDelivered (pre : List (Event T)) : Event T → Prop
  | .write w i v => i < w.numIds ∧ v ≠ 0 ∧
      ∃ a, lastCheck w pre = some (.reset a w (w.firstId + i) v)
  | _ => True

/-- What an event does to the user's memory. -/
def Event.store (m : Nat → Nat) : Event T → Nat → Nat
  | .write w i v =>
    match w.notifiedValues with
    | some a => Function.update m (a + i) v
    | none => m
  | _ => m

/-- Whenever the poller checks a single id for an operation with a buffer, the id is
notified. -/
def noFruitlessPoll : Guard (State T) (Event T) := fun _ s es =>
  ∀ e ∈ es, ∀ w, (e = .timeout .poller w ∨ ∃ id v, e = .reset .poller w id v) →
    w.numIds = 1 → w.notifiedValues ≠ none → s.notifications (w.segment, w.firstId) ≠ 0

theorem noFruitlessPoll_unpolled : Unpolled (T := T) noFruitlessPoll := by
  intro tr s es hes e he w hw
  have hno := hes e he
  rcases hw with rfl | ⟨id, v, rfl⟩
  · cases hno
  · cases hno

theorem lastCheck_append {w : Wait} {tr es : List (Event T)}
    (h : ∀ e ∈ es, e.checks w = false) : lastCheck w (tr ++ es) = lastCheck w tr := by
  unfold lastCheck
  have hnone : es.filter (Event.checks w) = [] := by
    rw [List.filter_eq_nil_iff]
    intro e he
    rw [h e he]
    exact Bool.false_ne_true
  rw [List.filter_append, hnone, List.append_nil]

theorem lastCheck_snoc {w : Wait} {tr : List (Event T)} {e : Event T} (h : e.checks w = true) :
    lastCheck w (tr ++ [e]) = some e := by
  unfold lastCheck
  rw [List.filter_append, List.filter_cons_of_pos h, List.filter_nil, List.getLast?_concat]

/-! ## Which pointer a check was given -/

/-- A task checks with the user's pointer; the poller does so too, except for a
single id, where it collects the value in the object. -/
structure Targets (s : State T) : Prop where
  task : ∀ t c, s.calls t = .checking c → c.target = .ofPointer c.wait.notifiedValues
  poll : ∀ pos x c, s.poller.pc = .checking pos x c →
    (c.wait.numIds = 1 → c.routine = .one ∧ c.target = .member x) ∧
    (c.wait.numIds ≠ 1 → c.target = .ofPointer c.wait.notifiedValues)

/-- A check that goes on keeps its pointer. -/
structure Check.Continues (c c' : Check) : Prop where
  wait : c'.wait = c.wait
  routine : c'.routine = c.routine
  target : c'.target = c.target

theorem Check.continues_afterTimeout (c : Check) : c.Continues c.afterTimeout := ⟨rfl, rfl, rfl⟩

theorem Check.continues_afterWaitsome (c : Check) (id : Nat) :
    c.Continues (c.afterWaitsome id) := by
  unfold Check.afterWaitsome
  cases hr : c.routine with
  | one => exact ⟨rfl, hr.symm, rfl⟩
  | many => exact ⟨rfl, hr.symm, rfl⟩

theorem Check.continues_afterReset (c : Check) (v : Nat) : c.Continues (c.afterReset v) := by
  refine ⟨c.afterReset_wait v, c.afterReset_routine v, ?_⟩
  unfold Check.afterReset Check.checkNotification Check.checkNotifications
  cases c.routine with
  | one => rfl
  | many => by_cases h : v ≠ 0 <;> simp [h]

/-- The value of an id goes to the entry of the id. -/
theorem Check.Ok.firstId_add_index {c : Check} (h : c.Ok) {id : Nat} (hid : c.wait.covers id) :
    c.wait.firstId + c.index id = id := by
  obtain ⟨hle, hlt⟩ := hid
  unfold Check.index
  cases hrout : c.routine with
  | one =>
    have := h.one hrout
    show c.wait.firstId + 0 = id
    omega
  | many =>
    show c.wait.firstId + (id - c.wait.firstId) = id
    omega

/-- A check with the user's pointer leaves the objects alone. -/
theorem take_objects {s : State T} {c : Check} {p : Option Nat} (h : c.target = .ofPointer p)
    (id v : Nat) :
    ((s.takeNotification c.wait.segment id).storeNotification c id v).objects = s.objects := by
  unfold State.storeNotification
  rw [h]
  by_cases hv : v ≠ 0
  · rw [if_pos hv]
    cases p <;> rfl
  · rw [if_neg hv]
    rfl

variable [DecidableEq T] {cfg : Limits}

omit [DecidableEq T] in
/-- The pointers of the running checks only depend on the running checks. -/
theorem Targets.congr {s s' : State T} (h : Targets s) (hcalls : s'.calls = s.calls)
    (hpc : ∀ pos x c, s'.poller.pc = .checking pos x c → s.poller.pc = .checking pos x c) :
    Targets s' :=
  ⟨fun t c ht => h.task t c (hcalls ▸ ht), fun pos x c hx => h.poll pos x c (hpc pos x c hx)⟩

theorem Targets.setCall {s : State T} (h : Targets s) {t : T} {c : Call}
    (hc : ∀ k, c = .checking k → k.target = .ofPointer k.wait.notifiedValues) :
    Targets (s.setCall t c) := by
  refine ⟨fun t' k ht' => ?_, h.poll⟩
  by_cases htt : t' = t
  · subst htt
    rw [State.setCall_self] at ht'
    exact hc k ht'
  · rw [State.setCall_of_ne _ htt] at ht'
    exact h.task t' k ht'

theorem Targets.setCheck {s : State T} (h : Targets s) {a : Agent T} {c c' : Check}
    (hc : s.check a = some c) (hcont : c.Continues c') : Targets (s.setCheck a c') := by
  cases a with
  | task t =>
    refine h.setCall (t := t) (c := .checking c') fun k hk => ?_
    obtain rfl := Call.checking.inj hk
    rw [hcont.target, hcont.wait]
    exact h.task t c (check_task hc)
  | poller =>
    obtain ⟨pos, x, hpc⟩ := check_poller hc
    rw [setCheck_poller hpc]
    refine ⟨h.task, fun pos' x' c'' hpc' => ?_⟩
    obtain ⟨rfl, rfl, rfl⟩ := PollPc.checking.inj hpc'
    rw [hcont.wait, hcont.routine, hcont.target]
    exact h.poll pos x c hpc

theorem targets_step {s s' : State T} {es : List (Event T)} (h : Targets s)
    (hs : Step cfg s es s') : Targets s' := by
  cases hs with
  | arrive segment id value hv => exact h.congr rfl fun _ _ _ hpc => hpc
  | notifyAsyncWait t segment id values ht hseg =>
    refine (h.setCall (t := t) fun k hk => ?_).congr rfl fun _ _ _ hpc => hpc
    obtain rfl := Call.checking.inj hk
    rfl
  | notifyAsyncWaitall t segment first num values ht hseg hpos hsmall =>
    refine (h.setCall (t := t) fun k hk => ?_).congr rfl fun _ _ _ hpc => hpc
    obtain rfl := Call.checking.inj hk
    rfl
  | notifyAsyncWaitallNone t ht => exact h
  | timeout hc hpc hnone => exact h.setCheck hc (Check.continues_afterTimeout _)
  | waitsome id hc hpc hid hval => exact h.setCheck hc (Check.continues_afterWaitsome _ id)
  | @reset a c id value hc hpc hval =>
    have htaken : Targets ((s.takeNotification c.wait.segment id).storeNotification c id value) :=
      h.congr (take_calls s c id value) fun _ _ _ hpc => by rwa [take_poller] at hpc
    exact htaken.setCheck ((take_check s c id value a).trans hc) (Check.continues_afterReset _ _)
  | callReturn ht hpc hr => exact h.setCall fun k hk => by cases hk
  | callMissing ht hpc hr => exact h.setCall fun k hk => by cases hk
  | callIncrease ht => exact h.setCall fun k hk => by cases hk
  | @callAllocate t w r x rest ht hfree =>
    exact (h.setCall (t := t) (c := .enqueue w.segment x) fun k hk => by cases hk).congr rfl
      fun _ _ _ hpc => hpc
  | callEnqueue ht hcap =>
    exact (h.setCall fun k hk => by cases hk).congr rfl fun _ _ _ hpc => hpc
  | @pollCheck pos x hpc hx =>
    refine ⟨h.task, fun pos' y c hpc' => ?_⟩
    obtain ⟨rfl, rfl, rfl⟩ := PollPc.checking.inj hpc'
    unfold State.beginCheck
    by_cases hn : (s.objects x).numIds = 1
    · simp [hn]
    · simp [hn]
  | @pollChecked pos x c hpc hret =>
    refine h.congr (by simp [State.setRemaining]) fun pos' y c' hpc' => ?_
    obtain ⟨pos'', hscan⟩ := checked_pc s pos x c.remaining
    rw [hscan] at hpc'
    cases hpc'
  | pollFree hpc hc => exact h.congr (by simp) fun _ _ _ hpc' => by cases hpc'
  | _ => exact h.congr rfl fun _ _ _ hpc' => by cases hpc'

theorem targets_reach {tr : List (Event T)} {s : State T} (h : Reach (machine T cfg) tr s) :
    Targets s := by
  refine Reach.invariant (I := fun _ s => Targets s) ?_ ?_ h
  · intro s hs
    refine ⟨fun t c ht => ?_, fun pos x c hpc => ?_⟩
    · rw [hs.calls t] at ht
      cases ht
    · rw [hs.poller] at hpc
      cases hpc
  · intro tr es s s' _ ht hs
    exact targets_step ht hs

/-! ## Write events are the stores to the user's memory -/

section Stores

omit [DecidableEq T]

theorem Event.store_none {w : Wait} (h : w.notifiedValues = none) (m : Nat → Nat) (i v : Nat) :
    Event.store m (.write w i v : Event T) = m := by
  unfold Event.store
  simp only [h]

theorem Event.store_some {w : Wait} {b : Nat} (h : w.notifiedValues = some b) (m : Nat → Nat)
    (i v : Nat) : Event.store m (.write w i v : Event T) = Function.update m (b + i) v := by
  unfold Event.store
  simp only [h]

/-- The writes reported by a check are its stores to the user's memory. -/
theorem take_memory {s : State T} (h : Targets s) {a : Agent T} {c : Check} {id v : Nat}
    (hc : s.check a = some c) :
    ((s.takeNotification c.wait.segment id).storeNotification c id v).memory =
      (c.writes id v : List (Event T)).foldl Event.store s.memory := by
  -- the pointer is the user's, or the member of the object
  have htarget : c.target = .ofPointer c.wait.notifiedValues ∨ ∃ x, c.target = .member x := by
    cases a with
    | task t => exact Or.inl (h.task t c (check_task hc))
    | poller =>
      obtain ⟨pos, x, hpc⟩ := check_poller hc
      by_cases hn : c.wait.numIds = 1
      · exact Or.inr ⟨x, ((h.poll pos x c hpc).1 hn).2⟩
      · exact Or.inl ((h.poll pos x c hpc).2 hn)
  unfold State.storeNotification Check.writes
  by_cases hv : v ≠ 0
  · rw [if_pos hv]
    rcases htarget with htarget | ⟨x, hmember⟩
    · cases hp : c.wait.notifiedValues with
      | none =>
        rw [htarget, hp]
        rfl
      | some b =>
        rw [htarget, hp]
        simp only [Target.ofPointer, if_pos hv, List.foldl_cons, List.foldl_nil,
          Event.store_some hp]
        rfl
    · rw [hmember]
      rfl
  · rw [if_neg hv]
    cases c.target <;> simp [hv, State.takeNotification]

/-- Copying back is reported. -/
theorem copyBack_memory (s : State T) (x : Nat) :
    (s.copyBack x).memory = (s.copyBackEvents x).foldl Event.store s.memory := by
  unfold State.copyBack State.copyBackEvents
  by_cases hn : (s.objects x).numIds = 1
  · cases hp : (s.objects x).notifiedValues with
    | none => simp [hn, Target.ofPointer, State.store]
    | some b => simp [hn, Target.ofPointer, State.store, Event.store_some hp]
  · simp [hn]

theorem setRemaining_copyBackEvents (s : State T) (x r : Nat) :
    (s.setRemaining x r).copyBackEvents x = s.copyBackEvents x := by
  unfold State.copyBackEvents
  rw [setRemaining_self]

end Stores

/-- **Write events are the stores to the user's memory.** -/
theorem Step.memory {s s' : State T} {es : List (Event T)} (h : Targets s)
    (hs : Step cfg s es s') : s'.memory = es.foldl Event.store s.memory := by
  cases hs with
  | timeout hc hpc hnone =>
    rw [State.setCheck_memory]
    rfl
  | waitsome id hc hpc hid hval => simp
  | @reset a c id value hc hpc hval =>
    rw [State.setCheck_memory, take_memory h hc, List.foldl_cons]
    rfl
  | @pollChecked pos x c hpc hret =>
    rw [State.advance_memory, copyBack_memory, setRemaining_copyBackEvents]
    rfl
  | pollFree hpc hc =>
    rw [State.free_memory]
    rfl
  | _ => rfl

/-! ## Runs without a fruitless poll -/

/-- When the poller has finished with a single id, the value it is about to copy is
the one its check has just received. -/
def Delivered (tr : List (Event T)) (s : State T) : Prop :=
  ∀ pos x c, s.poller.pc = .checking pos x c → c.pc = .returned → c.wait.numIds = 1 →
    c.wait.notifiedValues ≠ none → (s.objects x).notifiedValue ≠ 0 ∧
      lastCheck c.wait tr =
        some (.reset .poller c.wait c.wait.firstId (s.objects x).notifiedValue)

omit [DecidableEq T] in
/-- Steps of the tasks and of the network leave the poller's check alone. -/
theorem Delivered.frame {tr es : List (Event T)} {s s' : State T} (h : Delivered tr s)
    (hpc : s'.poller.pc = s.poller.pc)
    (hobj : ∀ pos x c, s.poller.pc = .checking pos x c →
      (s'.objects x).notifiedValue = (s.objects x).notifiedValue)
    (hes : ∀ pos x c, s.poller.pc = .checking pos x c → ∀ e ∈ es, e.checks c.wait = false) :
    Delivered (tr ++ es) s' := by
  intro pos x c hx hret hn hp
  rw [hpc] at hx
  rw [hobj pos x c hx, lastCheck_append (hes pos x c hx)]
  exact h pos x c hx hret hn hp

omit [DecidableEq T] in
/-- Nothing is claimed while the poller is not at the end of a check. -/
theorem Delivered.of_not_returned {tr : List (Event T)} {s : State T}
    (h : ∀ pos x c, s.poller.pc = .checking pos x c → c.pc ≠ .returned) : Delivered tr s :=
  fun pos x c hx hret => absurd hret (h pos x c hx)

/-- A task and the poller never check for the same operation. -/
theorem task_wait_ne {tr : List (Event T)} {s : State T} (hr : Reach (machine T cfg) tr s) {t : T}
    {c c' : Check} {pos x : Nat} (ht : s.calls t = .checking c)
    (hpc : s.poller.pc = .checking pos x c') : c.wait ≠ c'.wait := by
  have ho := owned_reach hr
  have hframe : s.ledger.live (.frame t) = some (c.wait, c.remaining) := by
    show (s.calls t).pending = _
    rw [ht]
    rfl
  have hslot : s.ledger.live (.slot x) = some (c'.wait, c'.remaining) := by
    show s.live (.slot x) = _
    rw [State.live_slot (ho.phase_allocated (ho.checking_list hpc) (by simp) (by simp)),
      State.pending_checking hpc]
  have hne : Carrier.frame t ≠ .slot x := by simp
  exact (accounts_machine hr).job_ne hslot hframe hne

omit [DecidableEq T] in
/-- The events of a check are about its own operation. -/
theorem reset_checks {a : Agent T} {c : Check} {id v : Nat} {w : Wait} (hw : c.wait ≠ w) :
    ∀ e ∈ (.reset a c.wait id v :: c.writes id v : List (Event T)), e.checks w = false := by
  intro e he
  rcases mem_reset he with rfl | rfl
  · simp [Event.checks, hw]
  · simp [Event.checks, hw]

/-- The poller's reset of a single id: the value goes to the object. -/
theorem delivered_reset_poller {tr : List (Event T)} {s : State T}
    (hr : Reach (machine T cfg) tr s) {c : Check} {id v : Nat}
    (hc : s.check .poller = some c) (hpc : c.pc = .reset id)
    (hv : s.notifications (c.wait.segment, id) = v)
    (hguard : noFruitlessPoll tr s (.reset .poller c.wait id v :: c.writes id v)) :
    Delivered (tr ++ .reset .poller c.wait id v :: c.writes id v)
      (((s.takeNotification c.wait.segment id).storeNotification c id v).setCheck .poller
        (c.afterReset v)) := by
  obtain ⟨pos, x, hchk⟩ := check_poller hc
  rw [setCheck_poller (by rw [take_poller, hchk])]
  intro pos' y c' hpc' _ hn hp
  obtain ⟨rfl, rfl, rfl⟩ := PollPc.checking.inj hpc'
  rw [Check.afterReset_wait] at hn hp ⊢
  obtain ⟨hone, htarget⟩ := ((targets_reach hr).poll pos x c hchk).1 hn
  have hid : id = c.wait.firstId := by
    obtain ⟨hle, hlt⟩ := ((owned_reach hr).check_ok hc).resets id hpc
    omega
  have hv0 : v ≠ 0 := by
    rw [← hv, hid]
    exact hguard _ (List.mem_cons_self ..) c.wait (Or.inr ⟨id, v, rfl⟩) hn hp
  have hstore : (((s.takeNotification c.wait.segment id).storeNotification c id v).objects
      x).notifiedValue = v := by
    unfold State.storeNotification
    rw [if_pos hv0, htarget]
    simp [State.store]
  have hwrites : (c.writes id v : List (Event T)) = [] := by
    unfold Check.writes
    rw [htarget]
  rw [hwrites]
  show (((s.takeNotification c.wait.segment id).storeNotification c id v).objects
      x).notifiedValue ≠ 0 ∧ _ = some (Event.reset .poller c.wait c.wait.firstId
        (((s.takeNotification c.wait.segment id).storeNotification c id v).objects x).notifiedValue)
  rw [hstore, hid]
  exact ⟨hv0, lastCheck_snoc (by simp [Event.checks])⟩

theorem delivered_step {tr es : List (Event T)} {s s' : State T}
    (hr : Reach (machine T cfg) tr s) (h : Delivered tr s) (hs : Step cfg s es s')
    (hguard : noFruitlessPoll tr s es) : Delivered (tr ++ es) s' := by
  cases hs with
  | arrive segment id value hv =>
    exact h.frame rfl (fun _ _ _ _ => rfl) fun _ _ _ _ => by simp [Event.checks]
  | notifyAsyncWait t segment id values ht hseg =>
    exact h.frame rfl (fun _ _ _ _ => rfl) fun _ _ _ _ => by simp [Event.checks]
  | notifyAsyncWaitall t segment first num values ht hseg hpos hsmall =>
    exact h.frame rfl (fun _ _ _ _ => rfl) fun _ _ _ _ => by simp [Event.checks]
  | notifyAsyncWaitallNone t ht =>
    exact h.frame rfl (fun _ _ _ _ => rfl) fun _ _ _ _ => by simp
  | @timeout a c hc hpc hnone =>
    cases a with
    | task t =>
      refine h.frame rfl (fun _ _ _ _ => rfl) fun pos x c' hchk => ?_
      simpa [Event.checks] using task_wait_ne hr (check_task hc) hchk
    | poller =>
      -- a poll that finds nothing: excluded for a single id with a buffer
      obtain ⟨pos, x, hchk⟩ := check_poller hc
      rw [setCheck_poller hchk]
      intro pos' y c' hpc' _ hn hp
      obtain ⟨rfl, rfl, rfl⟩ := PollPc.checking.inj hpc'
      have hnot := hguard _ (List.mem_singleton.mpr rfl) c.wait (Or.inl rfl) hn hp
      have hcov : c.wait.covers c.wait.firstId := by
        have hn' : c.wait.numIds = 1 := hn
        exact ⟨Nat.le_refl _, by omega⟩
      exact absurd (hnone _ hcov) hnot
  | @waitsome a c id hc hpc hid hval =>
    cases a with
    | task t => exact h.frame rfl (fun _ _ _ _ => rfl) fun _ _ _ _ => by simp
    | poller =>
      obtain ⟨pos, x, hchk⟩ := check_poller hc
      rw [setCheck_poller hchk]
      refine Delivered.of_not_returned fun pos' y c' hpc' => ?_
      obtain ⟨rfl, rfl, rfl⟩ := PollPc.checking.inj hpc'
      unfold Check.afterWaitsome
      cases c.routine <;> simp
  | @reset a c id value hc hpc hval =>
    cases a with
    | task t =>
      have htarget := (targets_reach hr).task t c (check_task hc)
      refine h.frame ?_ (fun pos x c' hchk => ?_) fun pos x c' hchk =>
        reset_checks (task_wait_ne hr (check_task hc) hchk)
      · show ((s.takeNotification c.wait.segment id).storeNotification c id value).poller.pc = _
        rw [take_poller]
      · show (((s.takeNotification c.wait.segment id).storeNotification c id value).objects
          x).notifiedValue = _
        rw [take_objects htarget]
    | poller => exact delivered_reset_poller hr hc hpc hval hguard
  | callReturn ht hpc hr =>
    exact h.frame rfl (fun _ _ _ _ => rfl) fun _ _ _ _ => by simp [Event.checks]
  | callMissing ht hpc hr => exact h.frame rfl (fun _ _ _ _ => rfl) fun _ _ _ _ => by simp
  | callIncrease ht =>
    exact h.frame rfl (fun _ _ _ _ => rfl) fun _ _ _ _ => by simp [Event.checks]
  | @callAllocate t w r x rest ht hfree =>
    refine h.frame rfl (fun pos y c hchk => ?_) fun _ _ _ _ => by simp [Event.checks]
    show ((s.construct x w r t).objects y).notifiedValue = _
    by_cases hyx : y = x
    · subst hyx
      rw [construct_self]
    · rw [construct_of_ne hyx]
  | callEnqueue ht hcap => exact h.frame rfl (fun _ _ _ _ => rfl) fun _ _ _ _ => by simp
  | @pollCheck pos x hpc hx =>
    refine Delivered.of_not_returned fun pos' y c hpc' => ?_
    obtain ⟨rfl, rfl, rfl⟩ := PollPc.checking.inj hpc'
    unfold State.beginCheck
    by_cases hn : (s.objects x).numIds = 1 <;> simp [hn]
  | @pollChecked pos x c hpc hret =>
    refine Delivered.of_not_returned fun pos' y c' hpc' => ?_
    obtain ⟨pos'', hscan⟩ := checked_pc s pos x c.remaining
    rw [hscan] at hpc'
    cases hpc'
  | _ => exact Delivered.of_not_returned fun _ _ _ hpc' => by cases hpc'

/-- The writes of a step follow the reset that returned their value. -/
theorem writesDelivered_step {tr es : List (Event T)} {s s' : State T}
    (hr : Reach (machine T cfg) tr s) (h : Delivered tr s) (hs : Step cfg s es s')
    (hcausal : Causal WritesDelivered tr) : Causal WritesDelivered (tr ++ es) := by
  -- a step without writes
  have quiet : (∀ e ∈ es, ∀ w i v, e ≠ .write w i v) → Causal WritesDelivered (tr ++ es) := by
    intro hes
    refine hcausal.append fun pre e post heq => ?_
    have := hes e (heq ▸ List.mem_append_right _ (List.mem_cons_self ..))
    cases e with
    | write w i v => exact absurd rfl (this w i v)
    | _ => trivial
  cases hs with
  | @reset a c id value hc hpc hval =>
    have hok := (owned_reach hr).check_ok hc
    obtain ⟨hle, hlt⟩ := hok.resets id hpc
    have hreset : Causal WritesDelivered (tr ++ [.reset a c.wait id value]) := hcausal.snoc trivial
    cases hw : (c.writes id value : List (Event T)) with
    | nil => exact hreset
    | cons e rest =>
      have he : e ∈ (c.writes id value : List (Event T)) := by
        rw [hw]
        exact List.mem_cons_self ..
      obtain ⟨b, htarget, hv, rfl⟩ := mem_writes he
      have hrest : rest = [] := by
        unfold Check.writes at hw
        rw [htarget] at hw
        simp only [if_pos hv, List.cons.injEq] at hw
        exact hw.2.symm
      have hindex := hok.firstId_add_index ⟨hle, hlt⟩
      rw [hrest, List.append_cons]
      refine hreset.snoc ⟨by omega, hv, a, ?_⟩
      rw [hindex]
      exact lastCheck_snoc (by simp [Event.checks])
  | @pollChecked pos x c hpc hret =>
    have hpoll := (owned_reach hr).poll
    rw [State.PollOk, hpc] at hpoll
    refine hcausal.append fun pre e post heq => ?_
    have he : e ∈ s.copyBackEvents x := by
      rw [heq]
      exact List.mem_append_right _ (List.mem_cons_self ..)
    obtain ⟨hn, hp, rfl⟩ := mem_copyBackEvents he
    have hpre : pre = [] := by
      unfold State.copyBackEvents at heq
      rw [if_pos ⟨hn, hp⟩] at heq
      have := congrArg List.length heq
      simp only [List.length_append, List.length_cons, List.length_nil] at this
      exact List.eq_nil_of_length_eq_zero (by omega)
    rw [← hpoll.2.1] at hn hp ⊢
    obtain ⟨hv, hlast⟩ := h pos x c hpc hret hn hp
    rw [hpre, List.append_nil]
    exact ⟨by omega, hv, .poller, hlast⟩
  | _ => exact quiet (by simp)

/-- **The user's buffer is written only by delivered notifications**, in every run in
which the poller finds the notification whenever it checks a single id for an
operation with a buffer: every write goes to an entry `i` of the buffer, right after
the reset of id `firstId + i` for this operation, and stores the nonzero value that
reset returned. The write events are all the stores to the user's memory. -/
theorem buffer_written_by_delivery {tr : List (Event T)} {s : State T}
    (h : ReachUnder (machine T cfg) noFruitlessPoll tr s) :
    Causal WritesDelivered tr ∧
    ∀ es s', Step cfg s es s' → s'.memory = es.foldl Event.store s.memory := by
  have hinv : Delivered tr s ∧ Causal WritesDelivered tr := by
    refine ReachUnder.invariant (I := fun tr s => Delivered tr s ∧ Causal WritesDelivered tr)
      ?_ ?_ h
    · intro s hs
      refine ⟨Delivered.of_not_returned fun pos x c hpc => ?_, Causal.nil⟩
      rw [hs.poller] at hpc
      cases hpc
    · rintro tr es s s' hr ⟨hd, hc⟩ hs hguard
      exact ⟨delivered_step hr.reach hd hs hguard, writesDelivered_step hr.reach hd hs hc⟩
  exact ⟨hinv.2, fun es s' hs => Step.memory (targets_reach h.reach) hs⟩

/-- A single id with a buffer is polled in vain: the poller copies what the recycled
object held before, here 7, to the user's buffer. No notification ever arrived. -/
theorem stale_value_written :
    ¬ ∀ (tr : List (Event Unit)) (s : State Unit), Reach (machine Unit oneSegment) tr s →
      Causal WritesDelivered tr := by
  intro hall
  obtain ⟨tr, s, hr, hpc, hobj, hnot, -⟩ := reach_first_check unpolled_free 7 (some 0)
  have h₁ := Reach.step hr (Step.timeout (a := .poller) (c := firstCheck (some 0))
    (by simp [State.check, hpc]) rfl (fun _ _ => by rw [hnot]))
  have h₂ := h₁.step (Step.pollChecked (x := 0) (c := (firstCheck (some 0)).afterTimeout)
    (by simp [State.setCheck, hpc] : _ = PollPc.checking 0 0 _) rfl)
  have hwrite : (s.setCheck .poller (firstCheck (some 0)).afterTimeout).copyBackEvents 0 =
      [.write (firstCheck (some 0)).wait 0 7] := by
    simp [State.copyBackEvents, hobj, firstCheck]
  rw [hwrite] at h₂
  obtain ⟨-, -, a, hlast⟩ := hall _ _ h₂ _ _ [] rfl
  rw [lastCheck_snoc (by rfl)] at hlast
  cases hlast

/-- A single id with a buffer is notified before the poller checks it: the run meets the
condition, and the value is stored in the range first and copied to the buffer then. -/
theorem buffer_written_by_delivery_once :
    ∃ tr s, ReachUnder (machine Unit oneSegment) noFruitlessPoll tr s ∧
      .reset .poller ⟨0, 0, 0, 1, some 0⟩ 0 5 ∈ tr ∧ .write ⟨0, 0, 0, 1, some 0⟩ 0 5 ∈ tr ∧
      Causal WritesDelivered tr := by
  obtain ⟨tr, s, hr, hpc, hobj, -⟩ := reach_first_check noFruitlessPoll_unpolled 7 (some 0)
  have h₁ := hr.step (Step.arrive 0 0 5 (by decide))
    (noFruitlessPoll_unpolled _ _ _ (by simp [Event.polls]))
  have h₂ := h₁.step (Step.waitsome (a := .poller) (c := firstCheck (some 0)) 0
    (by simp [State.check, hpc]) rfl ⟨Nat.le_refl _, Nat.one_pos⟩ (by simp [firstCheck]))
    (noFruitlessPoll_unpolled _ _ _ (by simp))
  rw [setCheck_poller (by exact hpc), List.append_nil] at h₂
  obtain ⟨s', h₃, hpc', hobj'⟩ : ∃ s', ReachUnder (machine Unit oneSegment) noFruitlessPoll
      (tr ++ [.arrive 0 0 5] ++ [.reset .poller ⟨0, 0, 0, 1, some 0⟩ 0 5]) s' ∧
      s'.poller.pc = .checking 0 0 (((firstCheck (some 0)).afterWaitsome 0).afterReset 5) ∧
      s'.objects 0 = { s.objects 0 with notifiedValue := 5 } := by
    refine ⟨_, h₂.step (Step.reset (a := .poller) (c := (firstCheck (some 0)).afterWaitsome 0)
      rfl (show _ = CheckPc.reset 0 from rfl) (show _ = 5 by simp [State.setPc, firstCheck]))
      fun e he w hw _ _ => ?_, ?_, ?_⟩
    · obtain rfl := List.mem_singleton.mp he
      rcases hw with hw | ⟨id, v, hw⟩
      · cases hw
      · obtain ⟨-, rfl, -, -⟩ := Event.reset.inj hw
        simp [State.setPc, firstCheck, Check.afterWaitsome]
    · rw [setCheck_poller (by rw [take_poller]; rfl)]
      rfl
    · simp [State.storeNotification, State.store, State.takeNotification, State.setPc, firstCheck,
        Check.afterWaitsome]
  have h₄ := h₃.step (Step.pollChecked hpc' rfl) (noFruitlessPoll_unpolled _ _ _ fun e he => by
    obtain ⟨-, -, rfl⟩ := mem_copyBackEvents he
    rfl)
  have hwrite : s'.copyBackEvents 0 = [.write ⟨0, 0, 0, 1, some 0⟩ 0 5] := by
    simp [State.copyBackEvents, hobj', hobj, firstCheck]
  rw [hwrite] at h₄
  exact ⟨_, _, h₄, by simp, by simp, (buffer_written_by_delivery h₄).1⟩

end Tagaspi
