import Tagaspi.Notifications.Arrivals

/-!
# Waiting does not depend on the schedule

Neither the result of a wait nor the number of its completions depends on when its
notifications arrive.

- `Collected`: what has been credited is in the buffer, or about to be copied there.
- `store_lastWrite`: what an operation wrote last is what its buffer holds.
- `schedule_independence`: the operation completes once, not before the last arrival
  and not after a check that runs later, with the notified values in the buffer.
-/

namespace Tagaspi

open Lts

variable {T : Type}

/-- The event completes `w`. -/
def Event.completes (w : Wait) : Event T → Bool
  | .returned w' => w' = w
  | .complete _ w' _ => w' = w
  | _ => false

/-- How often `w` has completed. -/
def completions (w : Wait) (tr : List (Event T)) : Nat := tr.countP (Event.completes w)

/-- The value that an event writes into entry `i` of the buffer of `w`. -/
def Event.writesTo (w : Wait) (i : Nat) : Event T → Option Nat
  | .write w' j v => if w' = w ∧ j = i then some v else none
  | _ => none

/-- What `w` last wrote into entry `i` of its buffer. -/
def lastWrite (w : Wait) (i : Nat) (tr : List (Event T)) : Option Nat :=
  (tr.filterMap (Event.writesTo w i)).getLast?

/-! ## What has been credited is in the buffer -/

/-- The value in the object of the range whose single id the poller is checking for `w`. -/
def State.member (s : State T) (w : Wait) : Option Nat :=
  match s.poller.pc with
  | .checking _ x c => if c.wait = w ∧ w.numIds = 1 then some (s.objects x).notifiedValue else none
  | _ => none

/-- **The credited values**: each has been written to its entry of the buffer, or is the one the
poller holds in the object and copies when the check is over. -/
def Collected (w : Wait) (notified : Nat → Nat) (tr : List (Event T)) (s : State T) : Prop :=
  ∀ id ∈ credits w tr,
    match s.member w with
    | some v => v = notified id
    | none => lastWrite w (id - w.firstId) tr = some (notified id)

section Collected

variable {s s' : State T} {w : Wait} {notified : Nat → Nat} {tr es : List (Event T)}

theorem State.member_none (h : ∀ pos x c, s.poller.pc = .checking pos x c → c.wait = w →
    w.numIds ≠ 1) : s.member w = none := by
  unfold State.member
  cases hpc : s.poller.pc with
  | checking pos x c => exact if_neg fun hcon => h pos x c hpc hcon.1 hcon.2
  | _ => rfl

theorem State.member_some {pos x : Nat} {c : Check} (hpc : s.poller.pc = .checking pos x c)
    (hw : c.wait = w) (hn : w.numIds = 1) : s.member w = some (s.objects x).notifiedValue := by
  unfold State.member
  rw [hpc]
  exact if_pos ⟨hw, hn⟩

theorem State.member_congr (hpc : s'.poller.pc = s.poller.pc)
    (hobj : ∀ pos x c, s.poller.pc = .checking pos x c → c.wait = w → w.numIds = 1 →
      (s'.objects x).notifiedValue = (s.objects x).notifiedValue) :
    s'.member w = s.member w := by
  unfold State.member
  rw [hpc]
  cases hx : s.poller.pc with
  | checking pos x c =>
    by_cases hcon : c.wait = w ∧ w.numIds = 1
    · simp only [if_pos hcon, hobj pos x c hx hcon.1 hcon.2]
    · simp only [if_neg hcon]
  | _ => rfl

theorem lastWrite_append {i : Nat} (h : ∀ v, Event.write w i v ∉ es) :
    lastWrite w i (tr ++ es) = lastWrite w i tr := by
  unfold lastWrite
  have hnone : es.filterMap (Event.writesTo w i) = [] := by
    rw [List.filterMap_eq_nil_iff]
    intro e he
    cases e with
    | write w' j v =>
      refine if_neg ?_
      rintro ⟨rfl, rfl⟩
      exact h v he
    | _ => rfl
  rw [List.filterMap_append, hnone, List.append_nil]

theorem lastWrite_snoc (i v : Nat) : lastWrite w i (tr ++ [.write w i v]) = some v := by
  unfold lastWrite
  have he : Event.writesTo w i (.write w i v : Event T) = some v := if_pos ⟨rfl, rfl⟩
  rw [List.filterMap_append, List.filterMap_cons_some he, List.filterMap_nil,
    List.getLast?_concat]

/-- Nothing is credited and nothing is written. -/
theorem Collected.frame (h : Collected w notified tr s) (hmem : s'.member w = s.member w)
    (hcred : credits w es = []) (hes : ∀ i v, Event.write w i v ∉ es) :
    Collected w notified (tr ++ es) s' := by
  intro id hid
  rw [credits_append, hcred, List.append_nil] at hid
  have hold := h id hid
  rw [hmem, lastWrite_append (hes _)]
  exact hold

/-- Outside a poller's check of a single id, everything credited is in the buffer. -/
theorem Collected.written (h : Collected w notified tr s) (hmem : s.member w = none) {id : Nat}
    (hid : id ∈ credits w tr) : lastWrite w (id - w.firstId) tr = some (notified id) := by
  have := h id hid
  rwa [hmem] at this

variable [DecidableEq T] {cfg : Limits} {s₀ : State T} {tr₁ : List (Event T)}

/-- A check that goes on keeps the value in the object. -/
theorem member_setCheck {a : Agent T} {c c' : Check} (hc : s.check a = some c)
    (hw : c'.wait = c.wait) : (s.setCheck a c').member w = s.member w := by
  cases a with
  | task t => rfl
  | poller =>
    obtain ⟨pos, x, hpc⟩ := check_poller hc
    rw [setCheck_poller hpc]
    simp only [State.setPc, State.member, hpc, hw]

omit [DecidableEq T] in
/-- The events of a check for another operation write nothing to the buffer of `w`. -/
theorem reset_writes {a : Agent T} {c : Check} {id v : Nat} (hw : c.wait ≠ w) (i v' : Nat) :
    Event.write w i v' ∉ (.reset a c.wait id v :: c.writes id v : List (Event T)) := by
  intro hmem
  rcases mem_reset hmem with heq | heq
  · cases heq
  · exact hw (Event.write.inj heq).1.symm

/-- Taking a notification for another operation. -/
theorem member_reset_of_ne (htargets : Targets s) {a : Agent T} {c : Check} {id v : Nat}
    (hc : s.check a = some c) (hw : c.wait ≠ w) :
    (((s.takeNotification c.wait.segment id).storeNotification c id v).setCheck a
      (c.afterReset v)).member w = s.member w := by
  rw [member_setCheck ((take_check s c id v a).trans hc) (by simp)]
  refine State.member_congr (by rw [take_poller]) fun pos x c' hpc hw' _ => ?_
  cases a with
  | task t => rw [take_objects (htargets.task t c (check_task hc))]
  | poller =>
    obtain ⟨pos', x', hpc'⟩ := check_poller hc
    obtain ⟨-, -, rfl⟩ := PollPc.checking.inj (hpc.symm.trans hpc')
    exact absurd hw' hw

/-- A reset for `w` that stores the value in the buffer itself. -/
theorem collected_reset_user (hu : Underway cfg s₀ w notified tr₁ tr s)
    (h : Collected w notified tr s) {a : Agent T} {c : Check} {id v b : Nat}
    (hc : s.check a = some c) (hw : c.wait = w) (hpc : c.pc = .reset id) (hv0 : v ≠ 0)
    (hv : v = notified id) (htarget : c.target = .user b) (hmem : s.member w = none)
    (hmem' : s'.member w = none) :
    Collected w notified (tr ++ .reset a c.wait id v :: c.writes id v) s' := by
  have hok := (owned_reach hu.reach).check_ok hc
  have hindex := hok.firstId_add_index (hok.resets id hpc)
  have hwrites : (c.writes id v : List (Event T)) = [.write w (c.index id) v] := by
    unfold Check.writes
    rw [htarget, ← hw]
    exact if_pos hv0
  intro id' hid'
  rw [credits_append, credits_reset, if_pos ⟨hw, hv0⟩, List.mem_append, List.mem_singleton] at hid'
  rw [hmem', hwrites, List.append_cons]
  show lastWrite w (id' - w.firstId) _ = some (notified id')
  by_cases hid : id' = id
  · have hi : id' - w.firstId = c.index id := by
      rw [← hw]
      omega
    rw [hi, lastWrite_snoc, hid, hv]
  · have hold := hid'.resolve_right hid
    obtain ⟨hle, -⟩ := (hu.collecting.taken id' hold).1
    rw [lastWrite_append, lastWrite_append]
    · exact h.written hmem hold
    · intro v' hmem
      cases List.mem_singleton.mp hmem
    · intro v' hmem
      have hi := (Event.write.inj (List.mem_singleton.mp hmem)).2.1
      rw [← hw] at hi hle
      omega

/-- A reset for `w`: the value goes to the buffer or to the object. -/
theorem collected_reset (hu : Underway cfg s₀ w notified tr₁ tr s)
    (h : Collected w notified tr s) (hbuf : w.notifiedValues ≠ none) {a : Agent T} {c : Check}
    {id v : Nat} (hc : s.check a = some c) (hw : c.wait = w) (hpc : c.pc = .reset id)
    (hv : s.notifications (c.wait.segment, id) = v) :
    Collected w notified (tr ++ .reset a c.wait id v :: c.writes id v)
      (((s.takeNotification c.wait.segment id).storeNotification c id v).setCheck a
        (c.afterReset v)) := by
  have htargets := targets_reach hu.reach
  have hcov : w.covers id := hw ▸ ((owned_reach hu.reach).check_ok hc).resets id hpc
  have hpend := hu.collecting.resets a c id hc hw hpc
  have hnotified := (hu.collecting.pending id hcov hpend).2
  rw [hw] at hv
  rw [hv] at hpend hnotified
  obtain ⟨b, hb⟩ := Option.ne_none_iff_exists'.mp hbuf
  have hsame : (((s.takeNotification c.wait.segment id).storeNotification c id v).setCheck a
      (c.afterReset v)).member w =
      ((s.takeNotification c.wait.segment id).storeNotification c id v).member w :=
    member_setCheck ((take_check s c id v a).trans hc) (by simp)
  by_cases hone : a = .poller ∧ w.numIds = 1
  · -- the poller collects a single id in the object
    obtain ⟨rfl, hn⟩ := hone
    obtain ⟨pos, x, hx⟩ := check_poller hc
    have htarget := ((htargets.poll pos x c hx).1 (hw ▸ hn)).2
    intro id' hid'
    rw [hsame, State.member_some (by rw [take_poller]; exact hx) hw hn]
    show (((s.takeNotification c.wait.segment id).storeNotification c id v).objects
      x).notifiedValue = notified id'
    have hstore : (((s.takeNotification c.wait.segment id).storeNotification c id v).objects
        x).notifiedValue = v := by
      unfold State.storeNotification
      rw [if_pos hpend, htarget]
      simp [State.store]
    have hid : id' = id := by
      rw [credits_append, credits_reset, if_pos ⟨hw, hpend⟩, List.mem_append,
        List.mem_singleton] at hid'
      rcases hid' with hid' | hid'
      · obtain ⟨hle, hlt⟩ := (hu.collecting.taken id' hid').1
        obtain ⟨hle', hlt'⟩ := hcov
        omega
      · exact hid'
    rw [hstore, hid, hnotified]
  · have hnone : s.member w = none := by
      refine State.member_none fun pos x c' hx hw' hn => ?_
      cases a with
      | task t => exact task_wait_ne hu.reach (check_task hc) hx (hw.trans hw'.symm)
      | poller => exact hone ⟨rfl, hn⟩
    have htarget : c.target = .user b := by
      cases a with
      | task t => rw [htargets.task t c (check_task hc), hw, hb]; rfl
      | poller =>
        obtain ⟨pos, x, hx⟩ := check_poller hc
        rw [(htargets.poll pos x c hx).2 (fun hn => hone ⟨rfl, hw ▸ hn⟩), hw, hb]
        rfl
    refine collected_reset_user hu h hc hw hpc hpend hnotified htarget hnone ?_
    rw [hsame, ← hnone]
    exact State.member_congr (by rw [take_poller]) fun _ x _ _ _ _ => by
      rw [take_objects (p := some b) htarget]

/-- The poller starts to check a range: of a single id nothing has been credited yet. -/
theorem collected_pollCheck (hu : Underway cfg s₀ w notified tr₁ tr s)
    (h : Collected w notified tr s) {pos x : Nat} (hpc : s.poller.pc = .scan pos)
    (hx : (s.lists s.poller.seg)[pos]? = some x) :
    Collected w notified (tr ++ []) (s.setPc (.checking pos x (s.beginCheck x))) := by
  have ho := owned_reach hu.reach
  have hlist := List.mem_of_getElem? hx
  have hstart := beginCheck_pending ho hlist
  have hold : s.member w = none := State.member_none fun _ _ _ hx => by rw [hpc] at hx; cases hx
  by_cases hcon : (s.beginCheck x).wait = w ∧ w.numIds = 1
  · obtain ⟨hw, hn⟩ := hcon
    have hwait : (s.objects x).toWait = w := (Prod.mk.inj hstart).1.symm.trans hw
    have hheld := ho.held s.poller.seg x (Or.inr (Or.inr hlist))
    have hlive : s.live (.slot x) = some (w, (s.objects x).remaining) := by
      rw [State.live_slot (ho.phase_allocated (p := .list s.poller.seg) hlist (by simp) (by simp)),
        State.pending_object (by simp [hpc]), hwait]
    have hempty : credits w tr = [] := by
      have hpos := hheld.pos
      have hbal := (hu.balance hlive).2
      exact List.eq_nil_of_length_eq_zero (by omega)
    intro id hid
    rw [List.append_nil, hempty] at hid
    cases hid
  · refine h.frame ?_ rfl (by simp)
    rw [hold]
    refine State.member_none fun pos' y c hy hw hn => ?_
    obtain ⟨-, -, rfl⟩ := PollPc.checking.inj hy
    exact hcon ⟨hw, hn⟩

/-- The poller has checked a range: the value of a single id is copied to the buffer. -/
theorem collected_pollChecked (hu : Underway cfg s₀ w notified tr₁ tr s)
    (h : Collected w notified tr s) (hbuf : w.notifiedValues ≠ none) {pos x : Nat} {c : Check}
    (hpc : s.poller.pc = .checking pos x c) (hnew : s'.member w = none) :
    Collected w notified (tr ++ s.copyBackEvents x) s' := by
  have hpoll := (owned_reach hu.reach).poll
  rw [State.PollOk, hpc] at hpoll
  obtain ⟨-, hwait, -⟩ := hpoll
  have hcred : credits w (s.copyBackEvents x) = [] :=
    credits_of_silent (filterMap_copyBackEvents s x)
  by_cases hcon : c.wait = w ∧ w.numIds = 1
  · obtain ⟨rfl, hn⟩ := hcon
    have hevents : s.copyBackEvents x = [.write c.wait 0 (s.objects x).notifiedValue] := by
      unfold State.copyBackEvents
      rw [hwait] at hn hbuf ⊢
      exact if_pos ⟨hn, hbuf⟩
    intro id hid
    rw [credits_append, hcred, List.append_nil] at hid
    have hval := h id hid
    rw [State.member_some hpc rfl hn] at hval
    have hi : id - c.wait.firstId = 0 := by
      obtain ⟨hle, hlt⟩ := (hu.collecting.taken id hid).1
      omega
    rw [hnew, hevents, hi]
    exact (lastWrite_snoc 0 _).trans (congrArg some hval)
  · refine h.frame ?_ hcred fun i v hmem => ?_
    · rw [hnew]
      refine (State.member_none fun pos' y c' hy hw hn => ?_).symm
      obtain ⟨-, -, rfl⟩ := PollPc.checking.inj (hpc.symm.trans hy)
      exact hcon ⟨hw, hn⟩
    · obtain ⟨hn, -, heq⟩ := mem_copyBackEvents hmem
      have hw : c.wait = w := hwait.trans (Event.write.inj heq).1.symm
      have hnum : (s.objects x).toWait.numIds = 1 := hn
      rw [← hwait, hw] at hnum
      exact hcon ⟨hw, hnum⟩

/-- Every step of the schedule keeps the credited values. -/
theorem collected_step (hu : Underway cfg s₀ w notified tr₁ tr s) (h : Collected w notified tr s)
    (hbuf : w.notifiedValues ≠ none) (hs : Step cfg s es s') :
    Collected w notified (tr ++ es) s' := by
  cases hs with
  | timeout hc hpc hnone => exact h.frame (member_setCheck hc rfl) rfl (by simp)
  | waitsome id hc hpc hid hval => exact h.frame (member_setCheck hc (by simp)) rfl (by simp)
  | @reset a c id v hc hpc hv =>
    by_cases hw : c.wait = w
    · exact collected_reset hu h hbuf hc hw hpc hv
    · refine h.frame (member_reset_of_ne (targets_reach hu.reach) hc hw) ?_ (reset_writes hw)
      rw [credits_reset, if_neg fun hcon => hw hcon.1]
  | @callAllocate t w' r x rest ht hfree =>
    refine h.frame (State.member_congr rfl fun pos y c _ _ _ => ?_) rfl (by simp)
    show ((s.construct x w' r t).objects y).notifiedValue = _
    by_cases hyx : y = x
    · subst hyx
      rw [construct_self]
    · rw [construct_of_ne hyx]
  | pollCheck hpc hx => exact collected_pollCheck hu h hpc hx
  | @pollChecked pos x c hpc hret =>
    refine collected_pollChecked hu h hbuf hpc (State.member_none fun pos' y c' hy => ?_)
    obtain ⟨pos'', hscan⟩ := checked_pc s pos x c.remaining
    rw [hscan] at hy
    cases hy
  | arrive | notifyAsyncWait | notifyAsyncWaitall | notifyAsyncWaitallNone | callReturn
  | callMissing | callIncrease | callEnqueue =>
    exact h.frame rfl rfl (by simp)
  | pollStart hpc | pollSegment hpc _ | pollEnd hpc _ | pollDequeue hpc _ | pollDequeued hpc
  | pollScanned hpc _ | pollComplete hpc _ | pollFree hpc _ | pollNext hpc _ =>
    -- no check before and none after
    refine h.frame ?_ rfl (by simp)
    rw [State.member_none (s := s) fun _ _ _ hx => by rw [hpc] at hx; cases hx]
    exact State.member_none fun _ _ _ hx => by cases hx

/-- The same along a run. -/
theorem collected_reach (hu : Underway cfg s₀ w notified tr₁ [] s) (hbuf : w.notifiedValues ≠ none)
    (h : ReachUnder ((machine T cfg).after s) (once s₀ w notified) tr s') :
    Collected w notified tr s' := by
  refine ReachUnder.invariant (M := (machine T cfg).after s)
    (I := fun tr s' => Collected w notified tr s') ?_ ?_ h
  · rintro _ rfl id hid
    cases hid
  · intro tr es s s' hr hi hs _
    exact collected_step (hu.run hr) hi hbuf hs

end Collected

/-! ## The buffer in memory -/

/-- No other operation writes to this address. -/
def Undisturbed (w : Wait) (tr : List (Event T)) (address : Nat) : Prop :=
  ∀ w' j v b, Event.write w' j v ∈ tr → w' ≠ w → w'.notifiedValues = some b → b + j ≠ address

/-- What an operation last wrote to an entry of its buffer stays there. -/
theorem store_lastWrite {w : Wait} {b i v : Nat} (hb : w.notifiedValues = some b) (m : Nat → Nat)
    {tr : List (Event T)} (hfree : Undisturbed w tr (b + i)) (h : lastWrite w i tr = some v) :
    tr.foldl Event.store m (b + i) = v := by
  induction tr using List.reverseRecOn with
  | nil => cases h
  | append_singleton tr e ih =>
    rw [List.foldl_append, List.foldl_cons, List.foldl_nil]
    have hbefore : Undisturbed w tr (b + i) :=
      fun w' j v b' hmem => hfree w' j v b' (List.mem_append_left _ hmem)
    -- an event that is no write of `w` to this entry
    have other : (∀ v, e ≠ .write w i v) →
        Event.store (tr.foldl Event.store m) e (b + i) = tr.foldl Event.store m (b + i) →
        Event.store (tr.foldl Event.store m) e (b + i) = v := by
      intro hne hkeep
      rw [hkeep]
      rw [lastWrite_append fun v hmem => hne v (List.mem_singleton.mp hmem).symm] at h
      exact ih hbefore h
    cases e with
    | write w' j v' =>
      by_cases hw : w' = w
      · subst hw
        rw [Event.store_some hb] at other ⊢
        by_cases hj : j = i
        · subst hj
          rw [lastWrite_snoc, Option.some.injEq] at h
          rw [Function.update_self, h]
        · exact other (fun v'' heq => hj (Event.write.inj heq).2.1)
            (Function.update_of_ne (by omega) ..)
      · refine other (fun v'' heq => hw (Event.write.inj heq).1) ?_
        cases hb' : w'.notifiedValues with
        | none => rw [Event.store_none hb']
        | some b' =>
          rw [Event.store_some hb', Function.update_of_ne]
          exact (hfree w' j v' b' (by simp) hw hb').symm
    | _ => exact other (by simp) rfl

section Main

variable [DecidableEq T] {cfg : Limits} {s₀ s s' : State T} {w : Wait} {notified : Nat → Nat}
  {tr₁ tr : List (Event T)} {a : Agent T}

theorem memory_run (hu : Underway cfg s₀ w notified tr₁ [] s)
    (h : ReachUnder ((machine T cfg).after s) (once s₀ w notified) tr s') :
    s'.memory = tr.foldl Event.store s.memory := by
  refine ReachUnder.invariant (M := (machine T cfg).after s)
    (I := fun tr s' => s'.memory = tr.foldl Event.store s.memory) ?_ ?_ h
  · rintro _ rfl
    rfl
  · intro tr es s₂ s' hr hi hs _
    rw [Step.memory (targets_reach (hu.run hr).reach) hs, hi, List.foldl_append]

/-! ## Completions -/

omit [DecidableEq T] in
theorem completed_iff : Completed w tr ↔ 0 < completions w tr := by
  unfold completions
  rw [List.countP_pos_iff]
  constructor
  · rintro (h | ⟨x, t, h⟩)
    · exact ⟨_, h, by simp [Event.completes]⟩
    · exact ⟨_, h, by simp [Event.completes]⟩
  · rintro ⟨e, he, hc⟩
    cases e with
    | returned w' =>
      obtain rfl : w' = w := by simpa [Event.completes] using hc
      exact Or.inl he
    | complete x w' t =>
      obtain rfl : w' = w := by simpa [Event.completes] using hc
      exact Or.inr ⟨x, t, he⟩
    | _ => simp [Event.completes] at hc

omit [DecidableEq T] in
/-- An operation completes once. -/
theorem completions_le_one (h : Causal WaitsInOrder tr) : completions w tr ≤ 1 := by
  induction tr using List.reverseRecOn with
  | nil => exact Nat.zero_le 1
  | append_singleton tr e ih =>
    have hbefore : Causal WaitsInOrder tr := by
      intro pre e' post heq
      refine h pre e' (post ++ [e]) ?_
      rw [heq, List.append_assoc, List.cons_append]
    have hlast := h tr e [] rfl
    have hcount : completions w (tr ++ [e]) =
        completions w tr + if e.completes w then 1 else 0 := by
      unfold completions
      rw [List.countP_append, List.countP_singleton]
    by_cases hc : e.completes w
    · have hopen : ¬ Completed w tr := by
        cases e with
        | returned w' =>
          obtain rfl : w' = w := by simpa [Event.completes] using hc
          exact hlast.2.1
        | complete x w' t =>
          obtain rfl : w' = w := by simpa [Event.completes] using hc
          exact hlast.2.1
        | _ => simp [Event.completes] at hc
      rw [completed_iff] at hopen
      rw [hcount, if_pos hc]
      omega
    · rw [hcount, if_neg hc, Nat.add_zero]
      exact ih hbefore

omit [DecidableEq T] in
/-- An agent that is not past its check has work left. -/
theorem work_ne_zero (ho : Owned s) (h : ¬ s.past w a) : s.work a ≠ 0 := by
  cases a with
  | task t =>
    simp only [State.past, not_forall, not_not] at h
    obtain ⟨c, hc, -⟩ := h
    have hchk : s.check (.task t) = some c := by simp only [State.check, hc]
    rw [State.work_task hchk]
    exact Nat.succ_ne_zero _
  | poller =>
    have hpoll := ho.poll
    cases hpc : s.poller.pc with
    | idle => exact absurd (Or.inl hpc) h
    | segment => exact absurd (Or.inr (Or.inl hpc)) h
    | dequeue left => exact absurd (Or.inr (Or.inr ⟨left, hpc⟩)) h
    | scan pos => rw [State.work_scan hpc]; omega
    | checking pos x c => rw [State.work_checking hpc]; omega
    | completing => simp only [State.work, hpc]; omega
    | freeing =>
      rw [State.PollOk, hpc] at hpoll
      have := List.length_pos_iff.mpr hpoll
      simp only [State.work, hpc]
      omega

/-- The buffer of an operation that has completed. -/
theorem Schedule.buffer {t : T} (h : Schedule cfg t w notified s₀ tr s) (hc : Completed w tr)
    {b i : Nat} (hb : w.notifiedValues = some b) (hi : i < w.numIds) :
    lastWrite w i tr = some (notified (w.firstId + i)) ∧
      (Undisturbed w tr (b + i) → s.memory (b + i) = notified (w.firstId + i)) := by
  obtain ⟨tr₁, s₁, hu, hrun⟩ := h.underway
  have hnow := hu.run hrun
  have hid := hnow.completed hc (w.firstId + i) ⟨Nat.le_add_right .., by omega⟩
  -- the poller no longer checks for the operation
  have hmem : s.member w = none := by
    refine State.member_none fun pos x c hpc hw _ => ?_
    obtain ⟨k, -, hk⟩ := check_carrier (a := .poller) (owned_reach hnow.reach)
      (by simp only [State.check, hpc] : _ = some c)
    rw [hw] at hk
    exact (hnow.balance hk).1 hc
  have hlast : lastWrite w i tr = some (notified (w.firstId + i)) := by
    have := (collected_reach hu (by rw [hb]; simp) hrun).written hmem hid
    rwa [Nat.add_sub_cancel_left] at this
  refine ⟨hlast, fun hfree => ?_⟩
  rw [memory_run hu hrun]
  exact store_lastWrite hb _ hfree hlast

theorem Schedule.completions_le_one {t : T} (h : Schedule cfg t w notified s₀ tr s) :
    completions w tr ≤ 1 := by
  obtain ⟨tr₁, s₁, hu, hrun⟩ := h.underway
  have horder := waitsInOrder_of_ledger (accounts_machine (hu.run hrun).reach).inOrder
  have hle : completions w (tr₁ ++ tr) ≤ 1 := Tagaspi.completions_le_one horder
  unfold completions at hle ⊢
  rw [List.countP_append] at hle
  omega

theorem Schedule.completions_eq_one {t : T} (h : Schedule cfg t w notified s₀ tr s)
    (hc : Completed w tr) : completions w tr = 1 :=
  Nat.le_antisymm h.completions_le_one (completed_iff.mp hc)

/-- **Waiting does not depend on the schedule.** In every schedule of an operation:

- it completes at most once, never before the last of its ids has been notified, and its
  buffer then holds the notified values;
- a check of the operation that runs after the last arrival, be it the initial check of the
  call or a check of the poller, ends with nothing remaining, and at the end of the call's check
  or of the poll of the segment the operation has completed;
- any other schedule of the same notifications gives the same buffer and the same number of
  completions. -/
theorem schedule_independence {t : T} (h : Schedule cfg t w notified s₀ tr s) :
    completions w tr ≤ 1 ∧
    (Completed w tr → AllArrived s₀ w tr ∧ completions w tr = 1 ∧
      ∀ b, w.notifiedValues = some b → ∀ i < w.numIds,
        lastWrite w i tr = some (notified (w.firstId + i)) ∧
        (Undisturbed w tr (b + i) → s.memory (b + i) = notified (w.firstId + i))) ∧
    (AllArrived s₀ w tr → ∀ a c, s.check a = some c → c.wait = w → c.pc ≠ .returned →
      ∀ es s', ReachUnder ((machine T cfg).after s) ((once s₀ w notified).after tr) es s' →
        (∀ c', s'.check a = some c' → c'.wait = w → c'.pc = .returned → c'.remaining = 0) ∧
        (s'.past w a → Completed w (tr ++ es)) ∧
        (¬ s'.past w a → (∃ es' s'', Step cfg s' es' s'' ∧ s''.work a < s'.work a) ∧
          ∀ es' s'', Step cfg s' es' s'' → s''.work a ≤ s'.work a)) ∧
    (∀ (t' : T) w' (s₀' : State T) tr' s',
      Schedule cfg t' w' notified s₀' tr' s' → w'.firstId = w.firstId →
      w'.numIds = w.numIds → Completed w tr → Completed w' tr' →
      completions w' tr' = completions w tr ∧
      ∀ b b', w.notifiedValues = some b → w'.notifiedValues = some b' → ∀ i < w.numIds,
        lastWrite w' i tr' = lastWrite w i tr ∧
        (Undisturbed w tr (b + i) → Undisturbed w' tr' (b' + i) →
          s'.memory (b' + i) = s.memory (b + i))) := by
  obtain ⟨tr₁, s₁, hu, hrun⟩ := h.underway
  have hnow := hu.run hrun
  refine ⟨h.completions_le_one,
    fun hc => ⟨fun id hcov => ?_, h.completions_eq_one hc, fun b hb i hi => h.buffer hc hb hi⟩,
    fun hall a c hchk hw hpc es s' hafter => ?_, ?_⟩
  · exact (hnow.collecting.taken id (hnow.completed hc id hcov)).2.1
  · have hlater := hnow.after hafter
    have ho := owned_reach hlater.reach
    have hfate := fate_reach hnow hall (.running hchk hw hpc) hafter
    refine ⟨fun c' hchk' hw' => hfate.remaining hlater hchk' hw', fun hpast => ?_, fun hpast => ?_⟩
    · exact hfate.completed_of_past ho hpast
    · have hwork := work_ne_zero ho hpast
      exact ⟨work_enabled ho hwork, fun es' s'' hs => work_step ho hs hwork⟩
  · intro t' w' s₀' tr' s' h' hfirst hnum hc hc'
    refine ⟨(h'.completions_eq_one hc').trans (h.completions_eq_one hc).symm,
      fun b b' hb hb' i hi => ?_⟩
    obtain ⟨hlast, hmem⟩ := h.buffer hc hb hi
    obtain ⟨hlast', hmem'⟩ := h'.buffer hc' hb' (hnum ▸ hi)
    rw [hfirst] at hlast' hmem'
    exact ⟨hlast'.trans hlast.symm, fun hfree hfree' => (hmem' hfree').trans (hmem hfree).symm⟩

end Main

/-- A waitall on ids 0 and 1, with a buffer. -/
def twoValues : Wait := ⟨0, 0, 0, 2, some 100⟩

/-- Id 0 has been notified before the call; id 1 is notified in the middle of the check. -/
def twoArrivals : List (Event Unit) :=
  [.reset (.task ()) twoValues 0 5, .write twoValues 0 5, .arrive 0 1 6,
    .reset (.task ()) twoValues 1 6, .write twoValues 1 6, .returned twoValues]

theorem schedule_twoArrivals :
    ∃ s₀ s, Schedule oneSegment () twoValues (· + 5) s₀ twoArrivals s := by
  obtain ⟨rest, hrest⟩ := range_numEntries
  have hr : Reach (machine Unit oneSegment) [] (State.fresh (0 :: rest) 0) :=
    .init (initial_fresh hrest.symm 0)
  -- the call, with id 0 notified
  obtain ⟨s₀, hr₀, hnot₀, hidle, hop⟩ : ∃ s₀, Reach (machine Unit oneSegment) [.arrive 0 0 5] s₀ ∧
      s₀.notifications = Function.update (fun _ => 0) (0, 0) 5 ∧ s₀.calls () = .idle ∧
      s₀.nextOp = 0 := ⟨_, hr.step (.arrive 0 0 5 (by decide)), rfl, rfl, rfl⟩
  obtain ⟨s₁, hstart, hc₁, hnot₁⟩ : ∃ s₁, Step oneSegment s₀ [.start () twoValues] s₁ ∧
      s₁.calls () = .checking (.notifyAsyncWaitall twoValues) ∧
      s₁.notifications = s₀.notifications := by
    have hstep : Step oneSegment s₀ [.start () (s₀.newWait 0 0 2 (some 100))] _ :=
      .notifyAsyncWaitall () 0 0 2 (some 100) hidle Nat.one_pos (by decide) (by decide)
    have hwait : s₀.newWait 0 0 2 (some 100) = twoValues := by
      rw [State.newWait, hop]
      rfl
    rw [hwait] at hstep
    exact ⟨_, hstep, State.setCall_self s₀ () _, rfl⟩
  have hrun : ReachUnder ((machine Unit oneSegment).after s₁) (once s₀ twoValues (· + 5)) [] s₁ :=
    .init rfl
  -- a step without arrivals in which nobody but the operation resets anything
  have quiet : ∀ {pre : List (Event Unit)} {s es id v}, (∀ e ∈ es, (∃ w i v', e = .write w i v') ∨
      e = .reset (.task ()) twoValues id v) → once s₀ twoValues (· + 5) pre s es := by
    intro pre s es id v hes
    refine ⟨fun id' v' hmem => ?_, fun a w' id' v' hmem _ _ => ?_⟩
    · rcases hes _ hmem with ⟨_, _, _, heq⟩ | heq <;> cases heq
    · rcases hes _ hmem with ⟨_, _, _, heq⟩ | heq
      · cases heq
      · exact (Event.reset.inj heq).2.1
  obtain ⟨s₂, hrun, hc₂, -⟩ := reach_collect (fun _ _ _ hs => hs) hrun hc₁ rfl rfl
    (⟨Nat.le_refl _, Nat.two_pos⟩ : twoValues.covers 0)
    (by rw [hnot₁, hnot₀]; rfl : _ = 5) (by decide) fun _ _ => quiet
  have hrun := hrun.step (Step.arrive 0 1 6 (by decide)) ⟨fun id v hmem _ => by
    obtain ⟨-, rfl, rfl⟩ := Event.arrive.inj (List.mem_singleton.mp hmem)
    refine ⟨rfl, ?_⟩
    rintro (hval | ⟨v, hv⟩)
    · rw [hnot₀] at hval
      exact hval rfl
    · simp [Check.writes, Check.notifyAsyncWaitall, twoValues, Target.ofPointer] at hv, by simp⟩
  have hone : (Check.notifyAsyncWaitall twoValues).checkNotifications 5 =
      { Check.notifyAsyncWaitall twoValues with remaining := 1 } := by decide
  rw [hone] at hc₂
  obtain ⟨s₃, hrun, hc₃, -⟩ := reach_collect (fun _ _ _ hs => hs) hrun hc₂ rfl rfl
    (⟨Nat.zero_le _, Nat.one_lt_two⟩ : twoValues.covers 1)
    (Function.update_self (0, 1) 6 s₂.notifications) (by decide) fun _ _ => quiet
  have hrun := hrun.step (Step.callReturn hc₃ (by decide) (by decide)) ⟨by simp, by simp⟩
  refine ⟨s₀, _, ⟨⟨_, hr₀⟩, fun id hcov hval => ?_, s₁, hstart, hrun⟩⟩
  rw [hnot₀] at hval ⊢
  by_cases hid : id = 0
  · subst hid
    rfl
  · exact absurd (Function.update_of_ne (by simpa [twoValues] using hid) ..) hval

/-- The call returns with both values in the buffer. -/
theorem schedule_independence_two :
    ∃ s₀ tr s, Schedule oneSegment () twoValues (· + 5) s₀ tr s ∧ Completed twoValues tr ∧
      completions twoValues tr = 1 ∧ s.memory 100 = 5 ∧ s.memory 101 = 6 := by
  obtain ⟨s₀, s, hsched⟩ := schedule_twoArrivals
  have hdone : Completed twoValues twoArrivals := Or.inl (by simp [twoArrivals])
  obtain ⟨-, hcount, hbuf⟩ := (schedule_independence hsched).2.1 hdone
  -- nobody else writes
  have hfree : ∀ address, Undisturbed twoValues twoArrivals address := by
    intro address w' j v b hmem hne
    simp only [twoArrivals, List.mem_cons, List.not_mem_nil, reduceCtorEq, Event.write.injEq,
      false_or, or_false] at hmem
    rcases hmem with hw | hw <;> exact absurd hw.1 hne
  exact ⟨s₀, _, s, hsched, hdone, hcount, (hbuf 100 rfl 0 Nat.two_pos).2 (hfree _),
    (hbuf 100 rfl 1 Nat.one_lt_two).2 (hfree _)⟩

end Tagaspi
