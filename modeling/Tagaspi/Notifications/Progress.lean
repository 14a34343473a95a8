import Tagaspi.Notifications.Buffer

/-!
# Checks and polls end

- `Step.checks_cases`: what a step does to the running checks and to the
  notifications.
- `agent_unique`: no two agents check for the same operation.
- `State.work`: what a call has left to do in its initial check, and the poller for the
  segment it is at. A step of the agent itself is enabled that lowers it (`work_enabled`),
  and no step raises it (`work_step`), so every check and every poll of a segment ends.
-/

namespace Tagaspi

open Lts Containers

variable {T : Type}

/-! ## Running checks -/

section Checks

variable [DecidableEq T] {cfg : Limits} {s s' : State T} {es : List (Event T)} {a : Agent T}
  {c : Check}

theorem setCheck_check {c' : Check} (hc : s.check a = some c) :
    (s.setCheck a c').check = Function.update s.check a (some c') := by
  funext b
  cases a with
  | task t =>
    by_cases hb : b = .task t
    · subst hb
      rw [Function.update_self]
      simp [State.setCheck, State.check]
    · rw [Function.update_of_ne hb]
      cases b with
      | task t' =>
        have ht : t' ≠ t := fun heq => hb (by rw [heq])
        simp [State.setCheck, State.check, Function.update_of_ne ht]
      | poller => rfl
  | poller =>
    obtain ⟨pos, x, hpc⟩ := check_poller hc
    by_cases hb : b = .poller
    · subst hb
      rw [Function.update_self]
      simp [State.setCheck, State.check, hpc]
    · rw [Function.update_of_ne hb]
      cases b with
      | task t' => simp [State.setCheck, State.check, hpc]
      | poller => exact absurd rfl hb

/-- A check starts, or goes away after it has returned, or is left alone. -/
inductive CheckMove : Option Check → Option Check → Prop where
  | same {o : Option Check} : CheckMove o o
  | starts {c : Check} : c.pc = .waitsome → CheckMove none (some c)
  | ends {c : Check} : c.pc = .returned → CheckMove (some c) none

theorem CheckMove.back {o o' : Option Check} {c : Check} (h : CheckMove o o')
    (hc : o' = some c) : o = some c ∨ c.pc = .waitsome := by
  cases h with
  | same => exact Or.inl hc
  | starts hpc =>
    obtain rfl := Option.some.inj hc
    exact Or.inr hpc
  | ends => cases hc

theorem CheckMove.forth {o o' : Option Check} {c : Check} (h : CheckMove o o')
    (hc : o = some c) (hpc : c.pc ≠ .returned) : o' = some c := by
  cases h with
  | same => exact hc
  | starts => cases hc
  | ends hret =>
    obtain rfl := Option.some.inj hc
    exact absurd hret hpc

/-- What a step does to the running checks and to the notifications. -/
inductive ChecksStep (s : State T) : List (Event T) → State T → Prop where
  | arrive {s' : State T} {segment id v : Nat} :
      v ≠ 0 → s'.notifications = Function.update s.notifications (segment, id) v →
      s'.check = s.check → ChecksStep s [.arrive segment id v] s'
  | timeout {s' : State T} {a : Agent T} {c : Check} :
      s.check a = some c → c.pc = .waitsome →
      (∀ id, c.wait.covers id → s.notifications (c.wait.segment, id) = 0) →
      s'.notifications = s.notifications →
      s'.check = Function.update s.check a (some c.afterTimeout) →
      ChecksStep s [.timeout a c.wait] s'
  | waitsome {s' : State T} {a : Agent T} {c : Check} {id : Nat} :
      s.check a = some c → c.pc = .waitsome → c.wait.covers id →
      s.notifications (c.wait.segment, id) ≠ 0 → s'.notifications = s.notifications →
      s'.check = Function.update s.check a (some (c.afterWaitsome id)) → ChecksStep s [] s'
  | reset {s' : State T} {a : Agent T} {c : Check} {id v : Nat} :
      s.check a = some c → c.pc = .reset id → s.notifications (c.wait.segment, id) = v →
      s'.notifications = Function.update s.notifications (c.wait.segment, id) 0 →
      s'.check = Function.update s.check a (some (c.afterReset v)) →
      ChecksStep s (.reset a c.wait id v :: c.writes id v) s'
  | quiet {s' : State T} {es : List (Event T)} :
      s'.notifications = s.notifications →
      (∀ e ∈ es, (∀ g id v, e ≠ .arrive g id v) ∧ (∀ a w, e ≠ .timeout a w) ∧
        ∀ a w id v, e ≠ .reset a w id v) →
      (∀ a, CheckMove (s.check a) (s'.check a)) → ChecksStep s es s'

/-- Where a check comes from after a GASPI call of the check of `a`. -/
theorem check_update {s' : State T} {b : Agent T} {c c₁ : Check}
    (h : s'.check = Function.update s.check a (some c₁)) (hc : s'.check b = some c) :
    (b = a ∧ c = c₁) ∨ (b ≠ a ∧ s.check b = some c) := by
  rw [h] at hc
  by_cases hb : b = a
  · subst hb
    rw [Function.update_self] at hc
    exact Or.inl ⟨rfl, (Option.some.inj hc).symm⟩
  · rw [Function.update_of_ne hb] at hc
    exact Or.inr ⟨hb, hc⟩

/-- A call enters or leaves its initial check. -/
theorem ChecksStep.setCall {s' : State T} {t : T} {k : Call}
    (hcheck : s'.check = (s.setCall t k).check) (hnot : s'.notifications = s.notifications)
    (hes : ∀ e ∈ es, (∀ g id v, e ≠ .arrive g id v) ∧ (∀ a w, e ≠ .timeout a w) ∧
      ∀ a w id v, e ≠ .reset a w id v)
    (hmove : CheckMove (s.check (.task t)) ((s.setCall t k).check (.task t))) :
    ChecksStep s es s' := by
  refine .quiet hnot hes fun b => ?_
  rw [hcheck]
  cases b with
  | task t' =>
    by_cases ht : t' = t
    · subst ht
      exact hmove
    · have hsame : (s.setCall t k).check (.task t') = s.check (.task t') := by
        simp only [State.check, State.setCall_of_ne s ht]
      rw [hsame]
      exact .same
  | poller => exact .same

/-- The poller enters or leaves a check, or is at neither. -/
theorem ChecksStep.poll {s' : State T} (hcalls : s'.calls = s.calls)
    (hnot : s'.notifications = s.notifications)
    (hes : ∀ e ∈ es, (∀ g id v, e ≠ .arrive g id v) ∧ (∀ a w, e ≠ .timeout a w) ∧
      ∀ a w id v, e ≠ .reset a w id v)
    (hmove : CheckMove (s.check .poller) (s'.check .poller)) : ChecksStep s es s' := by
  refine .quiet hnot hes fun b => ?_
  cases b with
  | task t =>
    have hsame : s'.check (.task t) = s.check (.task t) := by simp only [State.check, hcalls]
    rw [hsame]
    exact .same
  | poller => exact hmove

omit [DecidableEq T] in
/-- What an agent does outside a check is no check. -/
theorem check_none {k : Call} {t : T} (h : s.calls t = k) (hk : ∀ c, k ≠ .checking c) :
    s.check (.task t) = none := by
  cases hc : s.check (.task t) with
  | none => rfl
  | some c => exact absurd (h.symm.trans (check_task hc)) (hk c)

omit [DecidableEq T] in
theorem check_poller_none (h : ∀ pos x c, s.poller.pc ≠ .checking pos x c) :
    s.check .poller = none := by
  cases hc : s.check .poller with
  | none => rfl
  | some c =>
    obtain ⟨pos, x, hpc⟩ := check_poller hc
    exact absurd hpc (h pos x c)

/-- **What a step does to the running checks and to the notifications.** -/
theorem Step.checks_cases (hs : Step cfg s es s') : ChecksStep s es s' := by
  cases hs with
  | arrive segment id value hv => exact .arrive hv rfl rfl
  | notifyAsyncWait t segment id values ht hseg =>
    refine .setCall (t := t) rfl rfl (by simp) ?_
    rw [check_none ht (by simp)]
    simp only [State.check, State.setCall_self]
    exact .starts rfl
  | notifyAsyncWaitall t segment first num values ht hseg hpos hsmall =>
    refine .setCall (t := t) rfl rfl (by simp) ?_
    rw [check_none ht (by simp)]
    simp only [State.check, State.setCall_self]
    exact .starts rfl
  | notifyAsyncWaitallNone t ht => exact .quiet rfl (by simp) fun _ => .same
  | timeout hc hpc hnone => exact .timeout hc hpc hnone (by simp) (setCheck_check hc)
  | waitsome id hc hpc hid hval => exact .waitsome hc hpc hid hval (by simp) (setCheck_check hc)
  | @reset a c id value hc hpc hval =>
    have htake := take_check s c id value
    refine .reset hc hpc hval ?_ ?_
    · rw [State.setCheck_notifications, take_notifications]
    · rw [setCheck_check ((htake a).trans hc), funext htake]
  | @callReturn t c ht hpc hr | @callMissing t c ht hpc hr =>
    refine .setCall (t := t) rfl rfl (by simp) ?_
    have hc : s.check (.task t) = some c := by simp only [State.check, ht]
    rw [hc, check_none (State.setCall_self ..) (by simp)]
    exact .ends hpc
  | callIncrease ht | callAllocate ht _ | callEnqueue ht _ =>
    refine .setCall rfl rfl (by simp) ?_
    rw [check_none ht (by simp), check_none (State.setCall_self ..) (by simp)]
    exact .same
  | @pollCheck pos x hpc hx =>
    refine .poll rfl rfl (by simp) ?_
    rw [check_poller_none (by simp [hpc])]
    refine .starts ?_
    unfold State.beginCheck
    by_cases hn : (s.objects x).numIds = 1 <;> simp [hn]
  | @pollChecked pos x c hpc hret =>
    obtain ⟨pos', hscan⟩ := checked_pc s pos x c.remaining
    refine .poll (by simp [State.setRemaining]) (by simp) (fun e he => ?_) ?_
    · obtain ⟨-, -, rfl⟩ := mem_copyBackEvents he
      simp
    · have hc : s.check .poller = some c := by simp only [State.check, hpc]
      rw [hc, check_poller_none (by simp [hscan])]
      exact .ends hret
  | pollFree hpc hc =>
    refine .poll (by simp) (by simp) (by simp) ?_
    rw [check_poller_none (by simp [hpc]), check_poller_none (by simp)]
    exact .same
  | pollStart hpc | pollSegment hpc _ | pollEnd hpc _ | pollDequeue hpc _ | pollDequeued hpc
  | pollScanned hpc _ | pollComplete hpc _ | pollNext hpc _ =>
    refine .poll rfl rfl (by simp) ?_
    rw [check_poller_none (by simp [hpc]), check_poller_none (by simp [State.setPc])]
    exact .same

/-- No two agents check for the same operation. -/
theorem agent_unique {tr : List (Event T)} (hr : Reach (machine T cfg) tr s) {b : Agent T}
    {c' : Check} (hc : s.check a = some c) (hc' : s.check b = some c') (hw : c.wait = c'.wait) :
    a = b := by
  cases a with
  | task t =>
    cases b with
    | task t' =>
      by_contra hne
      have hk : s.ledger.live (.frame t) = some (c.wait, c.remaining) := by
        show (s.calls t).pending = _
        rw [check_task hc]
        rfl
      have hk' : s.ledger.live (.frame t') = some (c'.wait, c'.remaining) := by
        show (s.calls t').pending = _
        rw [check_task hc']
        rfl
      exact (accounts_machine hr).job_ne hk' hk (by simpa using hne) hw
    | poller =>
      obtain ⟨pos, x, hpc⟩ := check_poller hc'
      exact absurd hw (task_wait_ne hr (check_task hc) hpc)
  | poller =>
    cases b with
    | task t' =>
      obtain ⟨pos, x, hpc⟩ := check_poller hc
      exact absurd hw.symm (task_wait_ne hr (check_task hc') hpc)
    | poller => rfl

end Checks

/-! ## Work -/

/-- The GASPI calls that a running check makes at most. -/
def Check.left (c : Check) : Nat :=
  match c.pc with
  | .waitsome => 2 * c.remaining
  | .reset _ => 2 * c.remaining - 1
  | .returned => 0

/-- The checks of these ranges, with the steps around each. -/
def State.rangesWork (s : State T) (l : List Nat) : Nat :=
  (l.map fun x => 2 * (s.objects x).remaining + 4).sum

/-- What a call has left to do in its initial check, and the poller for the segment it is at. -/
def State.work (s : State T) : Agent T → Nat
  | .task t =>
    match s.check (.task t) with
    | some c => c.left + 1
    | none => 0
  | .poller =>
    match s.poller.pc with
    | .idle | .segment | .dequeue _ => 0
    | .scan pos =>
      s.rangesWork ((s.lists s.poller.seg).drop pos) + 2 * s.poller.completeRanges.length + 2
    | .checking pos _ c =>
      c.left + 3 + s.rangesWork ((s.lists s.poller.seg).drop (pos + 1)) +
        2 * s.poller.completeRanges.length + 2
    | .completing => 2 * s.poller.completeRanges.length + 1
    | .freeing => 2 * s.poller.completeRanges.length

/-- The GASPI calls a check can make next lower what it has left. -/
theorem Check.left_afterTimeout {c : Check} (hok : c.Ok) (hpc : c.pc = .waitsome) :
    c.afterTimeout.left < c.left := by
  have hpos := hok.pos (by rw [hpc]; exact CheckPc.noConfusion)
  have hleft : c.left = 2 * c.remaining := by
    unfold Check.left
    rw [hpc]
  rw [hleft]
  show 0 < 2 * c.remaining
  omega

theorem Check.left_afterWaitsome {c : Check} (hok : c.Ok) (hpc : c.pc = .waitsome) (id : Nat) :
    (c.afterWaitsome id).left < c.left := by
  have hpos := hok.pos (by rw [hpc]; exact CheckPc.noConfusion)
  have hleft : c.left = 2 * c.remaining := by
    unfold Check.left
    rw [hpc]
  have hnew : (c.afterWaitsome id).left = 2 * c.remaining - 1 := by
    unfold Check.afterWaitsome
    cases c.routine <;> rfl
  omega

theorem Check.left_afterReset {c : Check} (hok : c.Ok) {id : Nat} (hpc : c.pc = .reset id)
    (v : Nat) : (c.afterReset v).left < c.left := by
  have hpos := hok.pos (by rw [hpc]; exact CheckPc.noConfusion)
  have hleft : c.left = 2 * c.remaining - 1 := by
    unfold Check.left
    rw [hpc]
  have hrem := hok.afterReset_remaining hpc v
  cases hnew : (c.afterReset v).pc with
  | waitsome =>
    -- the loop goes on only after a notification
    have hv : v ≠ 0 := by
      rintro rfl
      unfold Check.afterReset at hnew
      cases hrout : c.routine <;>
        simp [hrout, Check.checkNotification, Check.checkNotifications] at hnew
    have hnext : (c.afterReset v).left = 2 * (c.afterReset v).remaining := by
      unfold Check.left
      rw [hnew]
    rw [if_pos hv] at hrem
    omega
  | reset id' => exact absurd hnew (c.afterReset_pc v id')
  | returned =>
    have hnext : (c.afterReset v).left = 0 := by
      unfold Check.left
      rw [hnew]
    omega

section Work

variable {s s' : State T} {a : Agent T}

theorem State.work_task {t : T} {c : Check} (h : s.check (.task t) = some c) :
    s.work (.task t) = c.left + 1 := by
  simp only [State.work, h]

theorem State.work_checking {pos x : Nat} {c : Check} (h : s.poller.pc = .checking pos x c) :
    s.work .poller = c.left + 3 + s.rangesWork ((s.lists s.poller.seg).drop (pos + 1)) +
      2 * s.poller.completeRanges.length + 2 := by
  simp only [State.work, h]

theorem State.work_scan {pos : Nat} (h : s.poller.pc = .scan pos) :
    s.work .poller = s.rangesWork ((s.lists s.poller.seg).drop pos) +
      2 * s.poller.completeRanges.length + 2 := by
  simp only [State.work, h]

theorem State.rangesWork_congr {l : List Nat}
    (h : ∀ x ∈ l, (s'.objects x).remaining = (s.objects x).remaining) :
    s'.rangesWork l = s.rangesWork l := by
  unfold State.rangesWork
  congr 1
  refine List.map_congr_left fun x hx => ?_
  rw [h x hx]

/-- The poller's work only depends on the poller, its list and the ranges in it. -/
theorem State.work_poller_congr (hp : s'.poller = s.poller) (hl : s'.lists = s.lists)
    (hr : ∀ x ∈ s.lists s.poller.seg, (s'.objects x).remaining = (s.objects x).remaining) :
    s'.work .poller = s.work .poller := by
  unfold State.work
  simp only [hp, hl]
  have hdrop : ∀ n, s'.rangesWork ((s.lists s.poller.seg).drop n) =
      s.rangesWork ((s.lists s.poller.seg).drop n) :=
    fun n => State.rangesWork_congr fun x hx => hr x (List.mem_of_mem_drop hx)
  cases s.poller.pc <;> simp only [hdrop]

/-- A range is taken up. -/
theorem work_pollCheck (ho : Owned s) {pos x : Nat} (hpc : s.poller.pc = .scan pos)
    (hx : (s.lists s.poller.seg)[pos]? = some x) :
    (s.setPc (.checking pos x (s.beginCheck x))).work .poller < s.work .poller := by
  have hstart := (Prod.mk.inj (beginCheck_pending ho (List.mem_of_getElem? hx))).2
  have hwait : (s.beginCheck x).pc = .waitsome := by
    unfold State.beginCheck
    by_cases hn : (s.objects x).numIds = 1 <;> simp [hn]
  have hleft : (s.beginCheck x).left = 2 * (s.objects x).remaining := by
    unfold Check.left
    rw [hwait, hstart]
  have hdrop : (s.lists s.poller.seg).drop pos = x :: (s.lists s.poller.seg).drop (pos + 1) := by
    obtain ⟨hlt, rfl⟩ := List.getElem?_eq_some_iff.mp hx
    exact List.drop_eq_getElem_cons hlt
  have hrest : (s.setPc (.checking pos x (s.beginCheck x))).work .poller =
      (s.beginCheck x).left + 3 + s.rangesWork ((s.lists s.poller.seg).drop (pos + 1)) +
        2 * s.poller.completeRanges.length + 2 := rfl
  have hsum : s.rangesWork (x :: (s.lists s.poller.seg).drop (pos + 1)) =
      2 * (s.objects x).remaining + 4 + s.rangesWork ((s.lists s.poller.seg).drop (pos + 1)) := by
    simp only [State.rangesWork, List.map_cons, List.sum_cons]
  rw [hrest, State.work_scan hpc, hdrop, hsum]
  omega

/-- Where the poller is after the check of a range. -/
theorem checked_poller (s : State T) (pos x r : Nat) :
    (r = 0 → (((s.setRemaining x r).copyBack x).advance pos x r).poller =
        { s.poller with pc := .scan pos, completeRanges := s.poller.completeRanges ++ [x] } ∧
      (((s.setRemaining x r).copyBack x).advance pos x r).lists =
        Function.update s.lists s.poller.seg ((s.lists s.poller.seg).eraseIdx pos)) ∧
    (r ≠ 0 → (((s.setRemaining x r).copyBack x).advance pos x r).poller =
        { s.poller with pc := .scan (pos + 1) } ∧
      (((s.setRemaining x r).copyBack x).advance pos x r).lists = s.lists) := by
  have hcopy : ((s.setRemaining x r).copyBack x).poller = s.poller ∧
      ((s.setRemaining x r).copyBack x).lists = s.lists := by
    rcases (s.setRemaining x r).copyBack_cases x with h | ⟨g, v, h⟩
    · rw [h]
      exact ⟨rfl, rfl⟩
    · rw [h, State.store_poller, State.store_lists]
      exact ⟨rfl, rfl⟩
  refine ⟨fun hr => ?_, fun hr => ?_⟩
  · simp only [State.advance, if_pos hr, hcopy, and_self]
  · simp only [State.advance, if_neg hr, State.setPc, hcopy, and_self]

/-- The check of a range is over. -/
theorem work_pollChecked (ho : Owned s) {pos x : Nat} {c : Check}
    (hpc : s.poller.pc = .checking pos x c) (hret : c.pc = .returned) :
    (((s.setRemaining x c.remaining).copyBack x).advance pos x c.remaining).work .poller <
      s.work .poller := by
  have hpoll := ho.poll
  rw [State.PollOk, hpc] at hpoll
  have hleft : c.left = 0 := by
    unfold Check.left
    rw [hret]
  obtain ⟨hlt, hget⟩ := List.getElem?_eq_some_iff.mp hpoll.1
  -- the other ranges of the list keep their numbers
  have hnd : (s.lists s.poller.seg).Nodup := ho.parts.nodup (.list s.poller.seg)
  have hrest : ∀ y ∈ (s.lists s.poller.seg).drop (pos + 1),
      ((((s.setRemaining x c.remaining).copyBack x).advance pos x c.remaining).objects
        y).remaining = (s.objects y).remaining := by
    intro y hy
    have hyx : y ≠ x := by
      rintro rfl
      have hsub := (List.drop_sublist pos (s.lists s.poller.seg)).nodup hnd
      rw [List.drop_eq_getElem_cons hlt, hget] at hsub
      exact (List.nodup_cons.mp hsub).1 hy
    rw [(checked_object s pos x c.remaining y).2, setRemaining_of_ne hyx]
  have hmoved := checked_poller s pos x c.remaining
  rw [State.work_checking hpc, hleft]
  generalize ((s.setRemaining x c.remaining).copyBack x).advance pos x c.remaining = s₁ at *
  by_cases hr : c.remaining = 0
  · obtain ⟨hp, hl⟩ := hmoved.1 hr
    have hscan : s₁.poller.pc = .scan pos := by rw [hp]
    have hdrop : ((s.lists s.poller.seg).eraseIdx pos).drop pos =
        (s.lists s.poller.seg).drop (pos + 1) := by
      rw [List.eraseIdx_eq_take_drop_succ, List.drop_append_of_le_length (by simp; omega),
        List.drop_eq_nil_of_le (by simp), List.nil_append]
    rw [State.work_scan hscan, hl, hp]
    simp only [Function.update_self, hdrop, State.rangesWork_congr hrest, List.length_append,
      List.length_singleton]
    omega
  · obtain ⟨hp, hl⟩ := hmoved.2 hr
    have hscan : s₁.poller.pc = .scan (pos + 1) := by rw [hp]
    rw [State.work_scan hscan, hl, hp]
    simp only [State.rangesWork_congr hrest]
    omega

/-- The list has been scanned. -/
theorem work_pollScanned {pos : Nat} (hpc : s.poller.pc = .scan pos) :
    (s.setPc .completing).work .poller < s.work .poller := by
  rw [State.work_scan hpc]
  show 2 * s.poller.completeRanges.length + 1 < _
  omega

theorem work_pollComplete (hpc : s.poller.pc = .completing) :
    (s.setPc .freeing).work .poller < s.work .poller := by
  simp only [State.work, State.setPc, hpc]
  omega

theorem work_pollFree {x : Nat} {rest : List Nat} (hpc : s.poller.pc = .freeing)
    (hc : s.poller.completeRanges = x :: rest) :
    ({ s.free x with
      poller := { s.poller with pc := .completing, completeRanges := rest } } : State T).work
        .poller < s.work .poller := by
  simp only [State.work, hpc, hc, List.length_cons]
  omega

theorem work_pollNext (hpc : s.poller.pc = .completing) (seg : Nat) :
    ({ s with poller := ⟨.segment, seg, []⟩ } : State T).work .poller < s.work .poller := by
  simp only [State.work, hpc]
  omega

variable [DecidableEq T] {cfg : Limits} {es : List (Event T)}

/-- A check of the poller goes on. -/
theorem work_setCheck_poller {c c' : Check} (hc : s.check .poller = some c)
    (hlt : c'.left < c.left) : (s.setCheck .poller c').work .poller < s.work .poller := by
  obtain ⟨pos, x, hpc⟩ := check_poller hc
  have hnew : (s.setPc (.checking pos x c')).work .poller =
      c'.left + 3 + s.rangesWork ((s.lists s.poller.seg).drop (pos + 1)) +
        2 * s.poller.completeRanges.length + 2 := rfl
  rw [setCheck_poller hpc, hnew, State.work_checking hpc]
  omega

/-- A check of either kind goes on. -/
theorem work_setCheck {c c' : Check} (hc : s.check a = some c) (hlt : c'.left < c.left) :
    (s.setCheck a c').work a < s.work a := by
  cases a with
  | task t =>
    have hnew : (s.setCheck (.task t) c').check (.task t) = some c' := by
      rw [setCheck_check hc, Function.update_self]
    rw [State.work_task hnew, State.work_task hc]
    omega
  | poller => exact work_setCheck_poller hc hlt

omit [DecidableEq T] in
/-- Taking a notification is no work of the poller's list. -/
theorem work_take (c : Check) (id v : Nat) (b : Agent T) :
    ((s.takeNotification c.wait.segment id).storeNotification c id v).work b = s.work b := by
  have hsame := sameOwners_take s c id v
  cases b with
  | task t => simp only [State.work, take_check]
  | poller =>
    exact State.work_poller_congr (take_poller s c id v) hsame.lists fun x _ => hsame.remaining x

/-- The reset of a notification. -/
theorem work_reset (ho : Owned s) {c : Check} {id : Nat} (v : Nat) (hc : s.check a = some c)
    (hpc : c.pc = .reset id) :
    (((s.takeNotification c.wait.segment id).storeNotification c id v).setCheck a
      (c.afterReset v)).work a < s.work a := by
  have hlt := work_setCheck ((take_check s c id v a).trans hc)
    (Check.left_afterReset (ho.check_ok hc) hpc v)
  rwa [work_take c id v a] at hlt

/-- **An agent with work left can go on with it.** -/
theorem work_enabled (ho : Owned s) (hw : s.work a ≠ 0) :
    ∃ es s', Step cfg s es s' ∧ s'.work a < s.work a := by
  -- a check that has not returned calls GASPI
  have running : ∀ c, s.check a = some c → c.pc ≠ .returned →
      ∃ es s', Step cfg s es s' ∧ s'.work a < s.work a := by
    intro c hc hpc
    have hok := ho.check_ok hc
    cases hcase : c.pc with
    | waitsome =>
      by_cases hsome : ∃ id, c.wait.covers id ∧ s.notifications (c.wait.segment, id) ≠ 0
      · obtain ⟨id, hcov, hval⟩ := hsome
        exact ⟨_, _, .waitsome id hc hcase hcov hval,
          work_setCheck hc (Check.left_afterWaitsome hok hcase id)⟩
      · have hnone : ∀ id, c.wait.covers id → s.notifications (c.wait.segment, id) = 0 :=
          fun id hcov => by_contra fun hval => hsome ⟨id, hcov, hval⟩
        exact ⟨_, _, .timeout hc hcase hnone, work_setCheck hc (Check.left_afterTimeout hok hcase)⟩
    | reset id => exact ⟨_, _, .reset hc hcase rfl, work_reset ho _ hc hcase⟩
    | returned => exact absurd hcase hpc
  cases a with
  | task t =>
    cases hc : s.check (.task t) with
    | none => exact absurd (by simp only [State.work, hc]) hw
    | some c =>
      by_cases hpc : c.pc = .returned
      · have hcall := check_task hc
        have hdone : ∀ k : Call, (∀ c, k ≠ .checking c) →
            (s.setCall t k).work (.task t) < s.work (.task t) := by
          intro k hk
          rw [State.work_task hc]
          simp only [State.work, check_none (State.setCall_self s t k) hk]
          omega
        by_cases hr : c.remaining = 0
        · exact ⟨_, _, .callReturn hcall hpc hr, hdone _ (by simp)⟩
        · exact ⟨_, _, .callMissing hcall hpc hr, hdone _ (by simp)⟩
      · exact running c hc hpc
  | poller =>
    have hpoll := ho.poll
    cases hpc : s.poller.pc with
    | scan pos =>
      cases hx : (s.lists s.poller.seg)[pos]? with
      | none => exact ⟨_, _, .pollScanned hpc hx, work_pollScanned hpc⟩
      | some x => exact ⟨_, _, .pollCheck hpc hx, work_pollCheck ho hpc hx⟩
    | checking pos x c =>
      by_cases hret : c.pc = .returned
      · exact ⟨_, _, .pollChecked hpc hret, work_pollChecked ho hpc hret⟩
      · exact running c (by simp only [State.check, hpc]) hret
    | completing =>
      cases hc : s.poller.completeRanges with
      | nil => exact ⟨_, _, .pollNext hpc hc, work_pollNext hpc _⟩
      | cons x rest => exact ⟨_, _, .pollComplete hpc hc, work_pollComplete hpc⟩
    | freeing =>
      rw [State.PollOk, hpc] at hpoll
      obtain ⟨x, rest, hc⟩ := List.exists_cons_of_ne_nil hpoll
      exact ⟨_, _, .pollFree hpc hc, work_pollFree hpc hc⟩
    | _ => exact absurd (by simp only [State.work, hpc]) hw

/-- The work of a call is its check. -/
theorem work_step_task (ho : Owned s) (hs : Step cfg s es s') {t : T} {c : Check}
    (hc : s.check (.task t) = some c) : s'.work (.task t) ≤ s.work (.task t) := by
  have hok := ho.check_ok hc
  -- a GASPI call, by this task or by another agent
  have call : ∀ {b : Agent T} {c₀ c₁ : Check}, s.check b = some c₀ →
      (c₀ = c → c₁.left < c.left) → s'.check = Function.update s.check b (some c₁) →
      s'.work (.task t) ≤ s.work (.task t) := by
    intro b c₀ c₁ hb hlt hchk
    rw [State.work_task hc]
    by_cases hbt : .task t = b
    · subst hbt
      have hnew : s'.check (.task t) = some c₁ := by rw [hchk, Function.update_self]
      have := hlt (Option.some.inj (hb.symm.trans hc))
      rw [State.work_task hnew]
      omega
    · have hnew : s'.check (.task t) = some c := by rw [hchk, Function.update_of_ne hbt, hc]
      rw [State.work_task hnew]
  cases hs.checks_cases with
  | arrive hv hnot hchk => simp only [State.work, hchk, Nat.le_refl]
  | timeout hb hpc hnone hnot hchk =>
    exact call hb (fun h => by subst h; exact Check.left_afterTimeout hok hpc) hchk
  | waitsome hb hpc hcov hval hnot hchk =>
    exact call hb (fun h => by subst h; exact Check.left_afterWaitsome hok hpc _) hchk
  | reset hb hpc hv hnot hchk =>
    exact call hb (fun h => by subst h; exact Check.left_afterReset hok hpc _) hchk
  | quiet hnot hes hmove =>
    have hmove := hmove (.task t)
    rw [hc] at hmove
    generalize ho' : s'.check (.task t) = o at hmove
    cases hmove with
    | same =>
      rw [State.work_task hc, State.work_task ho']
    | ends hret => simp only [State.work, ho', Nat.zero_le]

/-- **No step gives an agent more work** before it has finished what it has. -/
theorem work_step (ho : Owned s) (hs : Step cfg s es s') (hw : s.work a ≠ 0) :
    s'.work a ≤ s.work a := by
  cases a with
  | task t =>
    cases hc : s.check (.task t) with
    | none => exact absurd (by simp only [State.work, hc]) hw
    | some c => exact work_step_task ho hs hc
  | poller =>
    have same : s'.poller = s.poller → s'.lists = s.lists →
        (∀ x ∈ s.lists s.poller.seg, (s'.objects x).remaining = (s.objects x).remaining) →
        s'.work .poller ≤ s.work .poller :=
      fun hp hl hr => Nat.le_of_eq (State.work_poller_congr hp hl hr)
    cases hs with
    | @timeout b c hc hpc hnone =>
      cases b with
      | task t => exact same rfl rfl fun _ _ => rfl
      | poller =>
        exact Nat.le_of_lt (work_setCheck hc (Check.left_afterTimeout (ho.check_ok hc) hpc))
    | @waitsome b c id hc hpc hid hval =>
      cases b with
      | task t => exact same rfl rfl fun _ _ => rfl
      | poller =>
        exact Nat.le_of_lt (work_setCheck hc (Check.left_afterWaitsome (ho.check_ok hc) hpc id))
    | @reset b c id v hc hpc hv =>
      cases b with
      | task t =>
        have hsame := sameOwners_take s c id v
        exact same (take_poller s c id v) hsame.lists fun x _ => hsame.remaining x
      | poller => exact Nat.le_of_lt (work_reset ho v hc hpc)
    | @callAllocate t w r x rest ht hfree =>
      refine same rfl rfl fun y hy => ?_
      have hyx : y ≠ x := by
        rintro rfl
        have hxfree : y ∈ s.holds .free := by
          show y ∈ s.freeSlots
          rw [hfree]
          exact List.mem_cons_self ..
        exact absurd (ho.parts.unique (p := .list s.poller.seg) hy hxfree) (by simp)
      exact congrArg WaitingRange.remaining (construct_of_ne hyx)
    | pollStart hpc | pollSegment hpc _ | pollEnd hpc _ | pollDequeue hpc _ | pollDequeued hpc =>
      exact absurd (by simp only [State.work, hpc]) hw
    | pollCheck hpc hx => exact Nat.le_of_lt (work_pollCheck ho hpc hx)
    | pollChecked hpc hret => exact Nat.le_of_lt (work_pollChecked ho hpc hret)
    | pollScanned hpc hx => exact Nat.le_of_lt (work_pollScanned hpc)
    | pollComplete hpc hc => exact Nat.le_of_lt (work_pollComplete hpc)
    | pollFree hpc hc => exact Nat.le_of_lt (work_pollFree hpc hc)
    | pollNext hpc hc => exact Nat.le_of_lt (work_pollNext hpc _)
    | _ => exact same rfl rfl fun _ _ => rfl

end Work

end Tagaspi
