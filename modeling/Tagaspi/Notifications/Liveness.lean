import Tagaspi.Notifications.Rounds
import Tagaspi.Notifications.Schedules

/-!
# Every wait completes

The notifications of an operation arrive, each once, and nobody else takes them. If the
poller and the calling task are scheduled fairly, the operation completes, once, with the
notified values in its buffer (`wait_completes`). Until then its range travels from the call
to the queue of its segment, to the list, to `completeRanges`, and the poller comes by.

- `InCall`, `call_ends`: the call returns, or hands its range over.
- `Handed`: where the range is after that.
- `Caught`, `caught_step`: the poller that goes through the segment does not miss the range.
-/

namespace Tagaspi

open Lts

variable {T : Type}

/-! ## The ranges keep their operations -/

section Steps

variable [DecidableEq T] {cfg : Limits} {s s' : State T} {es tr : List (Event T)}

/-- Only a slot that is free gets another operation. -/
theorem Step.toWait_eq (hs : Step cfg s es s') {x : Nat} (hx : x ∉ s.freeSlots) :
    (s'.objects x).toWait = (s.objects x).toWait := by
  cases hs with
  | timeout hc | waitsome _ hc => rw [State.setCheck_objects]
  | @reset a c id v hc =>
    rw [State.setCheck_objects]
    exact (sameOwners_take s c id v).wait x
  | @callAllocate t w r y rest ht hfree =>
    have hne : x ≠ y := by
      rintro rfl
      rw [hfree] at hx
      exact hx (List.mem_cons_self ..)
    exact congrArg WaitingRange.toWait (construct_of_ne hne)
  | @pollChecked pos y c hpc hret =>
    rw [(checked_object s pos y c.remaining x).1]
    by_cases hxy : x = y
    · subst hxy
      rw [setRemaining_self]
    · rw [setRemaining_of_ne hxy]
  | pollFree hpc hc => rw [State.free_objects]
  | _ => rfl

/-! ## The call -/

variable (cfg) in
/-- The call of task `t` goes on. -/
def CallMoves (t : T) : Action (State T) (Event T) := fun s es s' =>
  Step cfg s es s' ∧ s.calls t ≠ .idle ∧ s'.calls t ≠ s.calls t

/-- `InCall t w k s`: the range of `w` is still in the call of `t`, with `k` left to do. -/
inductive InCall (t : T) (w : Wait) : Nat → State T → Prop where
  | checking {c : Check} {s : State T} :
      s.calls t = .checking c → c.wait = w → InCall t w (c.left + 4) s
  | increase {r : Nat} {s : State T} : s.calls t = .increase w r → InCall t w 3 s
  | allocate {r : Nat} {s : State T} : s.calls t = .allocate w r → InCall t w 2 s
  | enqueue {x : Nat} {s : State T} :
      s.calls t = .enqueue w.segment x → (s.objects x).toWait = w → InCall t w 1 s

/-- What a step does to the call of `t`, if it does anything. -/
inductive CallStep (s : State T) (t : T) : List (Event T) → State T → Prop where
  | start {w : Wait} {s' : State T} : s.calls t = .idle → CallStep s t [.start t w] s'
  | check {es : List (Event T)} {s' : State T} {c c' : Check} :
      s.calls t = .checking c → c'.wait = c.wait → c'.left < c.left →
      s'.calls t = .checking c' → CallStep s t es s'
  | returned {s' : State T} {c : Check} :
      s.calls t = .checking c → CallStep s t [.returned c.wait] s'
  | missing {es : List (Event T)} {s' : State T} {c : Check} :
      s.calls t = .checking c → s'.calls t = .increase c.wait c.remaining → CallStep s t es s'
  | increase {es : List (Event T)} {s' : State T} {w : Wait} {r : Nat} :
      s.calls t = .increase w r → s'.calls t = .allocate w r → CallStep s t es s'
  | allocate {es : List (Event T)} {s' : State T} {w : Wait} {r x : Nat} :
      s.calls t = .allocate w r → s'.calls t = .enqueue w.segment x →
      (s'.objects x).toWait = w → CallStep s t es s'
  | enqueue {es : List (Event T)} {s' : State T} {g x : Nat} :
      s.calls t = .enqueue g x → x ∈ s'.queues g → CallStep s t es s'

/-- **What a step does to the call of `t`.** -/
theorem Step.call_cases (ho : Owned s) (hs : Step cfg s es s') (t : T) :
    s'.calls t = s.calls t ∨ CallStep s t es s' := by
  -- a step of another task
  have other : ∀ {t' : T} {k : Call}, s'.calls = (s.setCall t' k).calls → t ≠ t' →
      s'.calls t = s.calls t := fun hcalls ht => by rw [hcalls, State.setCall_of_ne s ht]
  have check : ∀ {a : Agent T} {c c' : Check} {s₁ : State T}, s₁.calls = s.calls →
      s.check a = some c → c'.wait = c.wait → c'.left < c.left → s' = s₁.setCheck a c' →
      s'.calls t = s.calls t ∨ CallStep s t es s' := by
    intro a c c' s₁ hcalls hc hw hlt hs'
    cases a with
    | task t' =>
      by_cases ht : t = t'
      · subst ht
        refine .inr (.check (check_task hc) hw hlt ?_)
        rw [hs']
        exact Function.update_self ..
      · left
        rw [hs']
        show Function.update s₁.calls t' _ t = _
        rw [Function.update_of_ne ht, hcalls]
    | poller =>
      left
      rw [hs', State.setCheck_poller_calls, hcalls]
  cases hs with
  | timeout hc hpc =>
    exact check rfl hc (Check.afterTimeout_wait _)
      (Check.left_afterTimeout (ho.check_ok hc) hpc) rfl
  | waitsome id hc hpc =>
    exact check rfl hc (Check.afterWaitsome_wait ..)
      (Check.left_afterWaitsome (ho.check_ok hc) hpc id) rfl
  | @reset a c id v hc hpc =>
    exact check (take_calls s c id v) hc (Check.afterReset_wait ..)
      (Check.left_afterReset (ho.check_ok hc) hpc v) rfl
  | @notifyAsyncWait t' _ _ _ ht | @notifyAsyncWaitall t' _ _ _ _ ht =>
    by_cases htt : t = t'
    · subst htt
      exact .inr (.start ht)
    · exact .inl (other rfl htt)
  | @callReturn t' c ht =>
    by_cases htt : t = t'
    · subst htt
      exact .inr (.returned ht)
    · exact .inl (other rfl htt)
  | @callMissing t' c ht =>
    by_cases htt : t = t'
    · subst htt
      exact .inr (.missing ht (State.setCall_self ..))
    · exact .inl (other rfl htt)
  | @callIncrease t' w r ht =>
    by_cases htt : t = t'
    · subst htt
      exact .inr (.increase ht (State.setCall_self ..))
    · exact .inl (other rfl htt)
  | @callAllocate t' w r x rest ht hfree =>
    by_cases htt : t = t'
    · subst htt
      refine .inr (.allocate ht (Function.update_self ..) ?_)
      exact congrArg WaitingRange.toWait construct_self
    · exact .inl (Function.update_of_ne htt ..)
  | @callEnqueue t' g x ht hcap =>
    by_cases htt : t = t'
    · subst htt
      refine .inr (.enqueue ht ?_)
      show x ∈ Function.update s.queues g (s.queues g ++ [x]) g
      rw [Function.update_self]
      exact List.mem_append_right _ (List.mem_singleton.mpr rfl)
    · exact .inl (other rfl htt)
  | pollChecked => left; simp [State.setRemaining]
  | pollFree => left; simp
  | _ => exact .inl rfl

/-- The range of `w` waits in the queue of its segment. -/
def State.Queued (s : State T) (w : Wait) : Prop :=
  ∃ x ∈ s.queues w.segment, (s.objects x).toWait = w

/-- **A step while the range of `w` is in the call of `t`**: the call returns, or hands the range
over, or it is nearer to that, or it has not moved. -/
theorem inCall_step (ho : Owned s) {t : T} {w : Wait} {k : Nat} (h : InCall t w k s)
    (hs : Step cfg s es s') :
    (Completed w es ∨ s'.Queued w) ∨ (∃ k' < k, InCall t w k' s') ∨
      (InCall t w k s' ∧ s'.calls t = s.calls t) := by
  rcases hs.call_cases ho t with hsame | hmove
  · refine .inr (.inr ⟨?_, hsame⟩)
    cases h with
    | checking hc hw => exact .checking (hsame.trans hc) hw
    | increase hc => exact .increase (hsame.trans hc)
    | allocate hc => exact .allocate (hsame.trans hc)
    | enqueue hc hw =>
      have hx := ho.not_free (p := .hand t) (mem_hand hc) (by simp)
      exact .enqueue (hsame.trans hc) ((hs.toWait_eq hx).trans hw)
  · cases h with
    | checking hc hw =>
      cases hmove with
      | check hc' hw' hlt hnew =>
        obtain rfl := Call.checking.inj (hc.symm.trans hc')
        exact .inr (.inl ⟨_, by omega, .checking hnew (hw'.trans hw)⟩)
      | returned hc' =>
        obtain rfl := Call.checking.inj (hc.symm.trans hc')
        rw [hw]
        exact .inl (.inl (.inl (List.mem_singleton.mpr rfl)))
      | missing hc' hnew =>
        obtain rfl := Call.checking.inj (hc.symm.trans hc')
        rw [hw] at hnew
        exact .inr (.inl ⟨3, by omega, .increase hnew⟩)
      | start hc' | increase hc' | allocate hc' | enqueue hc' =>
        rw [hc] at hc'
        cases hc'
    | increase hc =>
      cases hmove with
      | increase hc' hnew =>
        obtain ⟨rfl, rfl⟩ := Call.increase.inj (hc.symm.trans hc')
        exact .inr (.inl ⟨2, by omega, .allocate hnew⟩)
      | start hc' | check hc' | returned hc' | missing hc' | allocate hc' | enqueue hc' =>
        rw [hc] at hc'
        cases hc'
    | allocate hc =>
      cases hmove with
      | allocate hc' hnew hw =>
        obtain ⟨rfl, rfl⟩ := Call.allocate.inj (hc.symm.trans hc')
        exact .inr (.inl ⟨1, by omega, .enqueue hnew hw⟩)
      | start hc' | check hc' | returned hc' | missing hc' | increase hc' | enqueue hc' =>
        rw [hc] at hc'
        cases hc'
    | enqueue hc hw =>
      cases hmove with
      | @enqueue _ _ _ x hc' hmem =>
        obtain ⟨rfl, rfl⟩ := Call.enqueue.inj (hc.symm.trans hc')
        have hx := ho.not_free (p := .hand t) (mem_hand hc) (by simp)
        exact .inl (.inr ⟨_, hmem, (hs.toWait_eq hx).trans hw⟩)
      | start hc' | check hc' | returned hc' | missing hc' | increase hc' | allocate hc' =>
        rw [hc] at hc'
        cases hc'

omit [DecidableEq T] in
theorem check_task_iff {t : T} {c : Check} :
    s.check (.task t) = some c ↔ s.calls t = .checking c := by
  refine ⟨check_task, fun hc => ?_⟩
  simp only [State.check, hc]

/-- The call can go on, unless it finds the pool empty. -/
theorem inCall_enabled (ho : Owned s) {t : T} {w : Wait} {k : Nat} (h : InCall t w k s)
    (hpool : ∀ r, s.calls t = .allocate w r → s.freeSlots ≠ []) :
    Enabled (CallMoves cfg t) s := by
  cases h with
  | checking hc hw =>
    have hcheck := (check_task_iff (s := s)).mpr hc
    obtain ⟨es, s', hs, hlt⟩ : ∃ es s', Step cfg s es s' ∧ s'.work (.task t) < s.work (.task t) :=
      work_enabled ho (by rw [State.work_task hcheck]; omega)
    refine ⟨es, s', hs, by simp [hc], fun hsame => ?_⟩
    have hcheck' := (check_task_iff (s := s')).mpr (hsame.trans hc)
    rw [State.work_task hcheck, State.work_task hcheck'] at hlt
    omega
  | increase hc => exact ⟨_, _, .callIncrease hc, by simp [hc], by simp [hc]⟩
  | allocate hc =>
    obtain ⟨x, rest, hfree⟩ := List.exists_cons_of_ne_nil (hpool _ hc)
    refine ⟨_, _, .callAllocate hc hfree, by simp [hc], ?_⟩
    rw [hc]
    show Function.update _ t _ t ≠ _
    rw [Function.update_self]
    simp
  | enqueue hc hw =>
    have hlen : (s.queues w.segment).length < numEntries :=
      ho.parts.length_lt (p := .hand t) (q := .queue w.segment) (mem_hand hc) (by simp)
    have hcap : numEntries ≤ wrQueueCapacity := by decide
    exact ⟨_, _, .callEnqueue hc (by omega), by simp [hc], by simp [hc]⟩

variable (cfg) in
/-- The call of `t` gets nearer to its end. -/
theorem callRanking (s₁ : State T) (t : T) (w : Wait) :
    Ranking ((machine T cfg).after s₁) (fun _ : Unit => CallMoves cfg t)
      (fun _ s => Owned s ∧ ∀ r, s.calls t = .allocate w r → s.freeSlots ≠ [])
      (fun es s' => Completed w es ∨ s'.Queued w) (fun k _ => InCall t w k) where
  isStep _ _ _ _ h := h.1
  enabled _ _ _ _ hI h := inCall_enabled hI.1 h hI.2
  step _ _ _ _ _ _ hI _ h hs := by
    rcases inCall_step hI.1 h hs with hgoal | ⟨k', hlt, h'⟩ | ⟨h', hsame⟩
    · exact .inl hgoal
    · exact .inr (.inl ⟨k', hlt, (), h'⟩)
    · exact .inr (.inr ⟨h', fun hmove => hmove.2.2 hsame⟩)

/-! ## The range on its way -/

/-- Where the range of `w` is after the call. -/
inductive Handed (w : Wait) (tr : List (Event T)) (s : State T) : Prop where
  | queued {x : Nat} : x ∈ s.queues w.segment → (s.objects x).toWait = w → Handed w tr s
  | listed {x : Nat} : x ∈ s.lists w.segment → (s.objects x).toWait = w → Handed w tr s
  | complete {x : Nat} :
      x ∈ s.poller.completeRanges → (s.objects x).toWait = w →
      ¬ (s.poller.pc = .freeing ∧ s.poller.completeRanges.head? = some x) → Handed w tr s
  | completed : Completed w tr → Handed w tr s

/-- No step loses the range. -/
theorem Handed.step (ho : Owned s) {w : Wait} (h : Handed w tr s) (hs : Step cfg s es s') :
    Handed w (tr ++ es) s' := by
  have keep : ∀ {p : Place T} {x : Nat}, x ∈ s.holds p → p ≠ .free → (s.objects x).toWait = w →
      (s'.objects x).toWait = w :=
    fun hx hp hw => (hs.toWait_eq (ho.not_free hx hp)).trans hw
  cases h with
  | @queued x hx hw =>
    have hw' := keep (p := .queue w.segment) hx (by simp) hw
    cases hs.poller_cases with
    | other hp hl hq => exact .queued ((hq _).subset hx) hw'
    | @dequeue left y rest hpc hy hp hl hq =>
      by_cases hseg : w.segment = s.poller.seg
      · rw [hseg, hy, List.mem_cons] at hx
        rcases hx with rfl | hx
        · refine .listed ?_ hw'
          rw [hl, hseg, Function.update_self]
          exact List.mem_append_right _ (List.mem_singleton.mpr rfl)
        · refine .queued ?_ hw'
          rw [hq, hseg, Function.update_self]
          exact hx
      · refine .queued ?_ hw'
        rw [hq, Function.update_of_ne hseg]
        exact hx
    | start _ _ _ hq | segment _ _ _ _ hq | finish _ _ _ _ hq | dequeued _ _ _ hq
    | check _ _ _ _ hq | call _ _ _ _ hq | stay _ _ _ _ hq | move _ _ _ _ hq
    | scanned _ _ _ _ hq | complete _ _ _ _ _ hq | free _ _ _ _ hq | next _ _ _ _ hq =>
      exact .queued (hq ▸ hx) hw'
  | @listed x hx hw =>
    have hw' := keep (p := .list w.segment) hx (by simp) hw
    cases hs.poller_cases with
    | dequeue hpc hy hp hl hq =>
      refine .listed ?_ hw'
      rw [hl]
      by_cases hseg : w.segment = s.poller.seg
      · rw [← hseg, Function.update_self]
        exact List.mem_append_left _ hx
      · rw [Function.update_of_ne hseg]
        exact hx
    | @move pos y c hpc hr hp hl hq =>
      by_cases hxy : x = y
      · subst hxy
        refine .complete ?_ hw' ?_
        · rw [hp]
          exact List.mem_append_right _ (List.mem_singleton.mpr rfl)
        · rw [hp]
          simp
      · refine .listed ?_ hw'
        rw [hl]
        by_cases hseg : w.segment = s.poller.seg
        · have hget := ho.poll
          rw [State.PollOk, hpc] at hget
          rw [hseg] at hx ⊢
          rw [Function.update_self, List.mem_eraseIdx_iff_getElem?]
          obtain ⟨i, hi⟩ := List.mem_iff_getElem?.mp hx
          refine ⟨i, ?_, hi⟩
          rintro rfl
          exact hxy (Option.some.inj (hi.symm.trans hget.1))
        · rw [Function.update_of_ne hseg]
          exact hx
    | other _ hl | start _ _ hl | segment _ _ _ hl | finish _ _ _ hl | dequeued _ _ hl
    | check _ _ _ hl | call _ _ _ hl | stay _ _ _ hl | scanned _ _ _ hl | complete _ _ _ _ hl
    | free _ _ _ hl | next _ _ _ hl =>
      exact .listed (hl ▸ hx) hw'
  | @complete x hx hw hnot =>
    have hw' := keep (p := .complete) hx (by simp) hw
    have hpoll := ho.poll
    cases hs.poller_cases with
    | other hp => exact .complete (hp ▸ hx) hw' (hp ▸ hnot)
    | start hpc =>
      -- nothing is left over from the last call
      rw [State.PollOk, hpc] at hpoll
      rw [hpoll] at hx
      cases hx
    | next hpc hc =>
      rw [hc] at hx
      cases hx
    | move _ _ hp =>
      refine .complete ?_ hw' (by rw [hp]; simp)
      rw [hp]
      exact List.mem_append_left _ hx
    | @complete y rest hpc hc hes hp =>
      by_cases hxy : x = y
      · subst hxy
        refine .completed (completed_append.mpr (.inr (.inr ⟨x, (s.objects x).task, ?_⟩)))
        rw [hes, hw]
        exact List.mem_singleton.mpr rfl
      · refine .complete (by rw [hp]; exact hx) hw' fun hcon => hxy ?_
        have hhead := hcon.2
        rw [hp, hc] at hhead
        exact (Option.some.inj hhead).symm
    | @free y rest hpc hc hp =>
      rw [hc, List.mem_cons] at hx
      rw [hpc, hc] at hnot
      have hxy : x ≠ y := by
        rintro rfl
        exact hnot ⟨rfl, rfl⟩
      exact .complete (by rw [hp]; exact hx.resolve_left hxy) hw' (by rw [hp]; simp)
    | segment _ _ hp | finish _ _ hp | dequeue _ _ hp | dequeued _ hp | check _ _ hp | call _ _ hp
    | stay _ _ hp | scanned _ _ hp =>
      exact .complete (by rw [hp]; exact hx) hw' (by rw [hp]; simp)
  | completed hc => exact .completed (completed_append.mpr (.inl hc))

/-! ## The poller comes by -/

theorem drop_eraseIdx {α : Type} (l : List α) (n : Nat) :
    (l.eraseIdx n).drop n = l.drop (n + 1) := by
  by_cases hn : n < l.length
  · rw [List.eraseIdx_eq_take_drop_succ, List.drop_append_of_le_length (by simp; omega),
      List.drop_eq_nil_of_le (by simp), List.nil_append]
  · rw [List.eraseIdx_of_length_le (by omega), List.drop_eq_nil_of_le (by omega),
      List.drop_eq_nil_of_le (by omega)]

/-- **The poller does not miss the range**: it is at the segment of the range and has still to
move it or to check it, or it checks it now, or has done so. -/
inductive Caught (w : Wait) (x : Nat) (tr : List (Event T)) (s : State T) : Prop where
  | moving {left : Nat} :
      s.poller.pc = .dequeue left → s.poller.seg = w.segment → (s.objects x).toWait = w →
      x ∈ (s.queues w.segment).take left ∨ x ∈ s.lists w.segment → Caught w x tr s
  | ahead {pos : Nat} :
      s.poller.pc = .scan pos → s.poller.seg = w.segment → (s.objects x).toWait = w →
      x ∈ (s.lists w.segment).drop pos → Caught w x tr s
  | later {pos y : Nat} {c : Check} :
      s.poller.pc = .checking pos y c → s.poller.seg = w.segment → (s.objects x).toWait = w →
      x ∈ (s.lists w.segment).drop (pos + 1) → Caught w x tr s
  | fate : Fate .poller w tr s → Caught w x tr s

variable {s₀ : State T} {w : Wait} {notified : Nat → Nat} {tr₁ : List (Event T)}

theorem caught_step (hu : Underway cfg s₀ w notified tr₁ tr s) (hall : AllArrived s₀ w tr)
    {x : Nat} (h : Caught w x tr s) (hs : Step cfg s es s') : Caught w x (tr ++ es) s' := by
  have ho := owned_reach hu.reach
  have keep : ∀ {p : Place T}, x ∈ s.holds p → p ≠ .free → (s.objects x).toWait = w →
      (s'.objects x).toWait = w :=
    fun hx hp hw => (hs.toWait_eq (ho.not_free hx hp)).trans hw
  cases h with
  | @moving left hpc hseg hw hx =>
    have hw' : (s'.objects x).toWait = w := by
      rcases hx with hx | hx
      · exact keep (p := .queue w.segment) (List.mem_of_mem_take hx) (by simp) hw
      · exact keep (p := .list w.segment) hx (by simp) hw
    cases hs.poller_cases with
    | other hp hl hq =>
      refine .moving (hp ▸ hpc) (hp ▸ hseg) hw' (hx.imp (fun hx => ?_) (hl ▸ ·))
      exact ((hq w.segment).take left).subset hx
    | @dequeue left' y rest hpc' hy hp hl hq =>
      obtain rfl := PollPc.dequeue.inj (hpc.symm.trans hpc')
      refine .moving (by rw [hp]) (by rw [hp, hseg]) hw' ?_
      rw [hl, hq, hseg, Function.update_self, Function.update_self, List.mem_append,
        List.mem_singleton]
      rw [hseg] at hy
      rw [hy, List.take_succ_cons, List.mem_cons] at hx
      tauto
    | dequeued hpc' hp hl hq =>
      obtain rfl := PollPc.dequeue.inj (hpc.symm.trans hpc')
      refine .ahead (by rw [hp]) (by rw [hp, hseg]) hw' ?_
      rw [hl, List.drop_zero]
      exact hx.resolve_left List.not_mem_nil
    | start h | segment h | finish h | check h | call h | stay h | move h | scanned h
    | complete h | free h | next h =>
      rw [hpc] at h
      cases h
  | @ahead pos hpc hseg hw hx =>
    have hw' := keep (p := .list w.segment) (List.mem_of_mem_drop hx) (by simp) hw
    cases hs.poller_cases with
    | other hp hl hq => exact .ahead (hp ▸ hpc) (hp ▸ hseg) hw' (hl ▸ hx)
    | @check pos' y hpc' hy hp hl hq =>
      obtain rfl := PollPc.scan.inj (hpc.symm.trans hpc')
      by_cases hxy : x = y
      · subst hxy
        have hstart := beginCheck_pending ho (List.mem_of_getElem? hy)
        refine .fate (.running (c := s.beginCheck x) ?_ ((Prod.mk.inj hstart).1.trans hw) ?_)
        · simp only [State.check, hp]
        · unfold State.beginCheck
          by_cases hn : (s.objects x).numIds = 1 <;> simp [hn]
      · rw [hseg] at hy
        obtain ⟨hlt, hget⟩ := List.getElem?_eq_some_iff.mp hy
        rw [List.drop_eq_getElem_cons hlt, hget, List.mem_cons] at hx
        exact .later (by rw [hp]) (by rw [hp, hseg]) hw' (hl ▸ hx.resolve_left hxy)
    | scanned hpc' hy =>
      -- the scan is not over before the range
      obtain rfl := PollPc.scan.inj (hpc.symm.trans hpc')
      rw [hseg, List.getElem?_eq_none_iff] at hy
      rw [List.drop_eq_nil_of_le hy] at hx
      cases hx
    | start h | segment h | finish h | dequeue h | dequeued h | call h | stay h | move h
    | complete h | free h | next h =>
      rw [hpc] at h
      cases h
  | @later pos y c hpc hseg hw hx =>
    have hw' := keep (p := .list w.segment) (List.mem_of_mem_drop hx) (by simp) hw
    cases hs.poller_cases with
    | other hp hl hq => exact .later (hp ▸ hpc) (hp ▸ hseg) hw' (hl ▸ hx)
    | call hpc' _ hp hl hq =>
      obtain ⟨rfl, rfl, -⟩ := PollPc.checking.inj (hpc.symm.trans hpc')
      exact .later (by rw [hp]) (by rw [hp, hseg]) hw' (hl ▸ hx)
    | stay hpc' _ hp hl hq =>
      obtain ⟨rfl, -, -⟩ := PollPc.checking.inj (hpc.symm.trans hpc')
      exact .ahead (by rw [hp]) (by rw [hp, hseg]) hw' (hl ▸ hx)
    | move hpc' _ hp hl hq =>
      obtain ⟨rfl, -, -⟩ := PollPc.checking.inj (hpc.symm.trans hpc')
      refine .ahead (by rw [hp]) (by rw [hp, hseg]) hw' ?_
      rw [hl, hseg, Function.update_self, drop_eraseIdx]
      exact hx
    | start h | segment h | finish h | dequeue h | dequeued h | check h | scanned h
    | complete h | free h | next h =>
      rw [hpc] at h
      cases h
  | fate h => exact .fate (fate_step hu hall h hs)

omit [DecidableEq T] in
/-- Once the poller has left the segment, the operation has completed. -/
theorem Caught.completed_of_segment (ho : Owned s) {x : Nat} (h : Caught w x tr s)
    (hpc : s.poller.pc = .segment) : Completed w tr := by
  cases h with
  | moving h | ahead h | later h =>
    rw [hpc] at h
    cases h
  | fate h => exact h.completed_of_past ho (.inr (.inl hpc))

end Steps

/-! ## Every wait completes -/

section Main

variable [DecidableEq T] {cfg : Limits} {s₀ s₁ : State T} {tr₀ : List (Event T)} {t : T} {w : Wait}
  {notified : Nat → Nat}

/-- The call of `t` for `w` is over. -/
def CallOver (t : T) (w : Wait) (s : State T) : Prop := ∀ k, ¬ InCall t w k s

/-- The call of an operation begins with the initial check. -/
theorem start_inCall (hs : Step cfg s₀ [.start t w] s₁) :
    w.segment < cfg.maxSegments ∧ ∃ k, InCall t w k s₁ := by
  generalize hes : [Event.start t w] = es at hs
  cases hs with
  | notifyAsyncWait t' g id values ht hseg =>
    obtain ⟨rfl, rfl⟩ := Event.start.inj (List.singleton_injective hes)
    exact ⟨hseg, _, .checking (State.setCall_self ..) rfl⟩
  | notifyAsyncWaitall t' g first num values ht hseg hpos hsmall =>
    obtain ⟨rfl, rfl⟩ := Event.start.inj (List.singleton_injective hes)
    exact ⟨hseg, _, .checking (State.setCall_self ..) rfl⟩
  | pollChecked =>
    obtain ⟨-, -, heq⟩ := mem_copyBackEvents (hes ▸ List.mem_singleton.mpr rfl)
    cases heq
  | _ => cases hes

omit [DecidableEq T] in
theorem callOver_of_idle {s : State T} (h : s.calls t = .idle) : CallOver t w s := by
  intro k hin
  cases hin with
  | checking hc | increase hc | allocate hc | enqueue hc =>
    rw [h] at hc
    cases hc

/-- After the start, the range is in the call, or was handed over. -/
theorem inCall_or_handed {tr₁ tr : List (Event T)} {s : State T} (hr : Reach (machine T cfg) tr₁ s₁)
    {k : Nat} (hin : InCall t w k s₁) (hrun : Reach ((machine T cfg).after s₁) tr s) :
    (∃ k, InCall t w k s) ∨ Handed w tr s := by
  refine hrun.invariant (M := (machine T cfg).after s₁)
    (I := fun tr s => (∃ k, InCall t w k s) ∨ Handed w tr s) ?_ ?_
  · rintro _ rfl
    exact .inl ⟨k, hin⟩
  · intro tr es s s' hrun ih hs
    have ho := owned_reach (hr.trans hrun)
    rcases ih with ⟨k, h⟩ | h
    · rcases inCall_step ho h hs with (hdone | ⟨x, hx, hw⟩) | ⟨k', -, h'⟩ | ⟨h', -⟩
      · exact .inr (.completed (completed_append.mpr (.inr hdone)))
      · exact .inr (.queued hx hw)
      · exact .inl ⟨k', h'⟩
      · exact .inl ⟨k, h'⟩
    · exact .inr (h.step ho hs)

/-- After the call has started it returns, or hands its range over. -/
theorem call_ends {tr₁ : List (Event T)} (hr : Reach (machine T cfg) tr₁ s₁)
    (e : Execution ((machine T cfg).after s₁)) (hcall : e.WeaklyFair (CallMoves cfg t))
    (hpool : ∀ n r, (e.state n).calls t = .allocate w r → (e.state n).freeSlots ≠ [])
    {k n : Nat} (h : InCall t w k (e.state n)) :
    ∃ m, n ≤ m ∧ Handed w (e.trace m) (e.state m) := by
  obtain ⟨m, hm, hdone⟩ := (callRanking cfg s₁ t w).reached e (fun _ => hcall)
    (fun p _ => ⟨(owned_execution hr e p).1, hpool p⟩) (i := ()) h
  refine ⟨m + 1, by omega, ?_⟩
  rcases hdone with hdone | ⟨x, hx, hw⟩
  · exact .completed (completed_append.mpr (.inr hdone))
  · exact .queued hx hw

omit [DecidableEq T] in
theorem Arrived.mono {tr tr' : List (Event T)} {id : Nat} (h : Arrived s₀ w tr id)
    (hle : tr <+: tr') : Arrived s₀ w tr' id := by
  obtain ⟨es, rfl⟩ := hle
  exact h.append es

omit [DecidableEq T] in
theorem Completed.mono {tr tr' : List (Event T)} (h : Completed w tr) (hle : tr <+: tr') :
    Completed w tr' := by
  obtain ⟨es, rfl⟩ := hle
  exact completed_append.mpr (.inl h)

/-- **The poller comes to the segment of a range that misses nothing any more, and completes it
before it leaves.** -/
theorem handed_completes {tr₁ : List (Event T)} (hlim : cfg.maxSegments ≤ 2 ^ cfg.segmentBits)
    (hseg : w.segment < cfg.maxSegments) (e : Execution ((machine T cfg).after s₁))
    (hpoll : e.WeaklyFair (PollerMoves cfg)) (hr : Reach (machine T cfg) tr₁ s₁)
    (hu : ∀ n, Underway cfg s₀ w notified tr₁ (e.trace n) (e.state n)) {n : Nat}
    (hall : AllArrived s₀ w (e.trace n)) (h : Handed w (e.trace n) (e.state n)) :
    ∃ m, Completed w (e.trace m) := by
  have hlater : ∀ m, n ≤ m → AllArrived s₀ w (e.trace m) ∧ Handed w (e.trace m) (e.state m) :=
    e.stable (P := fun tr s => AllArrived s₀ w tr ∧ Handed w tr s) ⟨hall, h⟩ fun m _ hm hs =>
      ⟨fun id hcov => (hm.1 id hcov).append _, hm.2.step (owned_execution hr e m).1 hs⟩
  obtain ⟨m, hm, hpc, hat⟩ := visits hr e hpoll hlim hseg n
  obtain ⟨m', hm', hpc', hat', hbegin, hseg'⟩ :=
    segment_begins hr e hpoll hpc (by rw [hat]; exact hseg)
  rw [hat] at hat' hbegin hseg'
  obtain ⟨hall', hhanded⟩ := hlater (m' + 1) (by omega)
  have hpollOk := (owned_execution hr e (m' + 1)).1.poll
  rw [State.PollOk, hbegin] at hpollOk
  -- the poller is about to go through the ranges of the segment
  have hcaught : Completed w (e.trace (m' + 1)) ∨
      ∃ x, Caught w x (e.trace (m' + 1)) (e.state (m' + 1)) := by
    cases hhanded with
    | @queued x hx hw =>
      refine .inr ⟨x, .moving hbegin hseg' hw (.inl ?_)⟩
      rw [List.take_length]
      exact hx
    | listed hx hw => exact .inr ⟨_, .moving hbegin hseg' hw (.inr hx)⟩
    | complete hx =>
      rw [hpollOk] at hx
      cases hx
    | completed hc => exact .inl hc
  rcases hcaught with hc | ⟨x, hx⟩
  · exact ⟨_, hc⟩
  · obtain ⟨p, hp, hpc'', -⟩ := segment_ends hr e hpoll (n := m' + 1) (by rw [hbegin]; rfl)
    have hend := e.stable (P := fun tr s => Caught w x tr s) hx
      (fun q hq hc hs => caught_step (hu q) (hlater q (by omega)).1 hc hs) p (Nat.le_of_lt hp)
    exact ⟨p, hend.completed_of_segment (owned_execution hr e p).1 hpc''⟩

section Completes

variable (hlim : cfg.maxSegments ≤ 2 ^ cfg.segmentBits) (hr : Reach (machine T cfg) tr₀ s₀)
  (hpend : ∀ id, w.covers id → s₀.notifications (w.segment, id) ≠ 0 →
    s₀.notifications (w.segment, id) = notified id)
  (hs : Step cfg s₀ [.start t w] s₁) (e : Execution ((machine T cfg).after s₁))
  (honce : ∀ n, once s₀ w notified (e.trace n) (e.state n) (e.events n))
  (harrive : ∃ n, AllArrived s₀ w (e.trace n))
  (hpoll : e.WeaklyFair (PollerMoves cfg))

include hlim hr hpend hs honce harrive hpoll

/-- A wait whose range was handed over, and whose notifications arrive, ends. -/
theorem handed_ends {m : Nat} (hhanded : Handed w (e.trace m) (e.state m)) :
    ∃ n, Completed w (e.trace n) := by
  have hstart := underway_start hr hpend hs
  have hu : ∀ n, Underway cfg s₀ w notified (tr₀ ++ [.start t w]) (e.trace n) (e.state n) :=
    fun n => hstart.run (e.reachUnder honce n)
  have hr₁ := hr.step hs
  obtain ⟨hseg, -⟩ := start_inCall hs
  obtain ⟨m', hall⟩ := harrive
  -- from the later of the two positions on, the range only has to be polled
  have hboth : Handed w (e.trace (max m m')) (e.state (max m m')) :=
    e.stable (P := fun tr s => Handed w tr s) hhanded
      (fun q _ h hs => h.step (owned_execution hr₁ e q).1 hs) _ (Nat.le_max_left ..)
  have hall' : AllArrived s₀ w (e.trace (max m m')) := fun id hcov =>
    (hall id hcov).mono (e.trace_prefix (Nat.le_max_right ..))
  exact handed_completes hlim hseg e hpoll hr₁ hu hall' hboth

variable (hcall : e.WeaklyFair (CallMoves cfg t))
  (hpool : ∀ n r, (e.state n).calls t = .allocate w r → (e.state n).freeSlots ≠ [])

include hcall hpool

/-- A wait whose notifications arrive ends. -/
theorem wait_ends : ∃ n, Completed w (e.trace n) := by
  obtain ⟨-, k, hin⟩ := start_inCall hs
  rw [← show e.state 0 = s₁ from e.start] at hin
  obtain ⟨m, -, hhanded⟩ := call_ends (hr.step hs) e hcall hpool hin
  exact handed_ends hlim hr hpend hs e honce harrive hpoll hhanded

/-- **Every wait completes.** Task `t` calls a wait operation `w` in a reachable state. The
notifications of its range arrive in the end, each at most once, and no other operation resets
them. Then the operation completes, exactly once, with the notified values in its buffer, in
every execution in which the poller and the call are scheduled fairly and the call does not find
the pool empty: whatever the other tasks do, and however the arrivals, the call and the poller
interleave. The segment identifiers are wide enough for all the segments. -/
theorem wait_completes :
    ∃ n, ∀ m, n ≤ m → completions w (e.trace m) = 1 ∧
      ∀ b i, w.notifiedValues = some b → i < w.numIds →
        lastWrite w i (e.trace m) = some (notified (w.firstId + i)) := by
  obtain ⟨n, hn⟩ := wait_ends hlim hr hpend hs e honce harrive hpoll hcall hpool
  refine ⟨n, fun m hm => ?_⟩
  have hdone : Completed w (e.trace m) := hn.mono (e.trace_prefix hm)
  have hsched : Schedule cfg t w notified s₀ (e.trace m) (e.state m) :=
    ⟨⟨tr₀, hr⟩, hpend, s₁, hs, e.reachUnder honce m⟩
  exact ⟨hsched.completions_eq_one hdone, fun b i hb hi => (hsched.buffer hdone hb hi).1⟩

end Completes

end Main

/-! ### A poller that finds nothing -/

/-- No call, no range. -/
structure State.Quiet (s : State Unit) : Prop where
  calls : s.calls () = .idle
  queues : ∀ g, s.queues g = []
  lists : ∀ g, s.lists g = []
  complete : s.poller.completeRanges = []
  pc : s.poller.pc ∈ [PollPc.idle, .segment, .dequeue 0, .scan 0, .completing]

/-- The poller goes round and round. -/
theorem State.Quiet.next (cfg : Limits) {s : State Unit} (h : s.Quiet) :
    ∃ s', PollerMoves cfg s [] s' ∧ s'.Quiet := by
  have hpc := h.pc
  simp only [List.mem_cons, List.not_mem_nil, or_false] at hpc
  rcases hpc with hpc | hpc | hpc | hpc | hpc
  · exact ⟨_, ⟨.pollStart hpc, poller_ne (by simp [hpc])⟩, h.calls, h.queues, h.lists, rfl, by simp⟩
  · by_cases hseg : s.poller.seg < cfg.maxSegments
    · refine ⟨_, ⟨.pollSegment hpc hseg, poller_ne (by simp [hpc, State.setPc])⟩, h.calls, h.queues,
        h.lists, h.complete, ?_⟩
      simp [State.setPc, h.queues]
    · exact ⟨_, ⟨.pollEnd hpc hseg, poller_ne (by simp [hpc, State.setPc])⟩, h.calls, h.queues,
        h.lists, h.complete, by simp [State.setPc]⟩
  · exact ⟨_, ⟨.pollDequeued hpc, poller_ne (by simp [hpc, State.setPc])⟩, h.calls, h.queues,
      h.lists, h.complete, by simp [State.setPc]⟩
  · exact ⟨_, ⟨.pollScanned hpc (by rw [h.lists]; rfl), poller_ne (by simp [hpc, State.setPc])⟩,
      h.calls, h.queues, h.lists, h.complete, by simp [State.setPc]⟩
  · exact ⟨_, ⟨.pollNext hpc h.complete, poller_ne (by simp [hpc])⟩, h.calls, h.queues, h.lists,
      rfl, by simp⟩

/-- A wait for id 0, with a buffer. -/
def oneValue : Wait := ⟨0, 0, 0, 1, some 100⟩

/-- What the run of the example has to meet. -/
def oneGuard (s₀ : State Unit) : Guard (State Unit) (Event Unit) := fun tr s es =>
  once s₀ oneValue (· + 5) tr s es ∧
    (∀ r, s.calls () = .allocate oneValue r → s.freeSlots ≠ []) ∧ ∀ w, Event.start () w ∉ es

theorem oneGuard_silent {s₀ s : State Unit} {tr es : List (Event Unit)}
    (hes : ∀ e ∈ es, (∀ g id v, e ≠ .arrive g id v) ∧ (∀ w, e ≠ .start () w) ∧
      ∀ a w id v, e = .reset a w id v → w = oneValue)
    (hs : ∀ r, s.calls () = .allocate oneValue r → s.freeSlots ≠ []) : oneGuard s₀ tr s es :=
  ⟨⟨fun _ _ hmem => absurd rfl ((hes _ hmem).1 _ _ _),
    fun _ _ _ _ hmem _ _ => (hes _ hmem).2.2 _ _ _ _ rfl⟩, hs,
    fun _ hmem => (hes _ hmem).2.1 _ rfl⟩

/-- The wait finds nothing and hands over its range. -/
theorem one_handed :
    ∃ s₀ s₁ tr s, Initial s₀ ∧ s₀.notifications = (fun _ => 0) ∧
      Step oneSegment s₀ [.start () oneValue] s₁ ∧
      ReachUnder ((machine Unit oneSegment).after s₁) (oneGuard s₀) tr s ∧
      (∀ id, ¬ Arrived s₀ oneValue tr id) ∧ s.calls () = .idle ∧
      (s.objects 0).toWait = oneValue ∧ s.freeSlots.length < numEntries ∧
      s.queues = Function.update (fun _ => []) 0 [0] ∧ s.lists = (fun _ => []) ∧
      s.poller = ⟨.idle, 0, []⟩ := by
  obtain ⟨rest, hrest⟩ := range_numEntries
  have hlen : rest.length < numEntries := by
    have := congrArg List.length hrest
    rw [List.length_range, List.length_cons] at this
    omega
  obtain ⟨s₀, hr, hc, hf, hn, hq, hl, hp, ho⟩ : ∃ s₀ : State Unit, Initial s₀ ∧
      s₀.calls () = .idle ∧ s₀.freeSlots = 0 :: rest ∧ s₀.notifications = (fun _ => 0) ∧
      s₀.queues = (fun _ => []) ∧ s₀.lists = (fun _ => []) ∧ s₀.poller = ⟨.idle, 0, []⟩ ∧
      s₀.nextOp = 0 :=
    ⟨_, initial_fresh hrest.symm 0, rfl, rfl, rfl, rfl, rfl, rfl, rfl⟩
  obtain ⟨s₁, hstart, hc₁, hf₁, hn₁, hq₁, hl₁, hp₁⟩ : ∃ s₁,
      Step oneSegment s₀ [.start () oneValue] s₁ ∧
      s₁.calls () = .checking (.notifyAsyncWait oneValue) ∧ s₁.freeSlots = 0 :: rest ∧
      s₁.notifications = (fun _ => 0) ∧ s₁.queues = (fun _ => []) ∧ s₁.lists = (fun _ => []) ∧
      s₁.poller = ⟨.idle, 0, []⟩ := by
    have hstep : Step oneSegment s₀ [.start () (s₀.newWait 0 0 1 (some 100))] _ :=
      .notifyAsyncWait () 0 0 (some 100) hc Nat.one_pos
    have hwait : s₀.newWait 0 0 1 (some 100) = oneValue := by
      rw [State.newWait, ho]
      rfl
    rw [hwait] at hstep
    exact ⟨_, hstep, State.setCall_self s₀ () _, hf, hn, hq, hl, hp⟩
  have h₁ : ReachUnder ((machine Unit oneSegment).after s₁) (oneGuard s₀) [] s₁ := .init rfl
  have h₂ := h₁.step (Step.timeout (a := .task ()) (check_task_iff.mpr hc₁) rfl fun id _ => by
    rw [hn₁]) (oneGuard_silent (by simp) (by simp [hc₁]))
  have h₃ := h₂.step (Step.callMissing (t := ()) (State.setCall_self ..) rfl Nat.one_ne_zero)
    (oneGuard_silent (by simp) (by simp [State.setCheck]))
  have h₄ := h₃.step (Step.callIncrease (t := ()) (State.setCall_self ..))
    (oneGuard_silent (by simp) (by simp))
  obtain ⟨s₄, tr₄, h₄, htr₄, hc₄, hf₄, hn₄, hq₄, hl₄, hp₄⟩ : ∃ s₄ tr₄,
      ReachUnder ((machine Unit oneSegment).after s₁) (oneGuard s₀) tr₄ s₄ ∧
      (∀ id v, Event.arrive 0 id v ∉ tr₄) ∧ s₄.calls () = .allocate oneValue 1 ∧
      s₄.freeSlots = 0 :: rest ∧ s₄.notifications = (fun _ => 0) ∧ s₄.queues = (fun _ => []) ∧
      s₄.lists = (fun _ => []) ∧ s₄.poller = ⟨.idle, 0, []⟩ :=
    ⟨_, _, h₄, by simp, State.setCall_self .., hf₁, hn₁, hq₁, hl₁, hp₁⟩
  have h₅ := h₄.step (Step.callAllocate (t := ()) hc₄ hf₄)
    (oneGuard_silent (by simp) fun _ _ => by simp [hf₄])
  have h₆ := h₅.step (Step.callEnqueue (t := ())
    (State.setCall_self (s₄.construct 0 oneValue 1 ()) () _) (by
    show (s₄.queues 0).length < _
    rw [hq₄]
    decide)) (oneGuard_silent (by simp) (by simp))
  refine ⟨s₀, s₁, _, _, hr, hn, hstart, h₆, ?_, rfl, ?_, hlen, ?_, hl₄, hp₄⟩
  · rintro id (hval | ⟨v, hv⟩)
    · rw [hn] at hval
      exact hval rfl
    · simp only [List.append_nil, List.mem_append, List.mem_singleton, reduceCtorEq,
        or_false] at hv
      exact htr₄ _ _ hv
  · exact congrArg WaitingRange.toWait construct_self
  · show Function.update s₄.queues 0 (s₄.queues 0 ++ [0]) = _
    rw [hq₄]
    rfl

/-- The notification arrives, and the poller goes through the segment. -/
theorem one_pass :
    ∃ s₀ s₁ tr s es s', Initial s₀ ∧ s₀.notifications = (fun _ => 0) ∧
      Step oneSegment s₀ [.start () oneValue] s₁ ∧
      ReachUnder ((machine Unit oneSegment).after s₁) (oneGuard s₀) tr s ∧
      AllArrived s₀ oneValue tr ∧ s.calls () = .idle ∧ s.poller = ⟨.segment, 0, []⟩ ∧
      ReachUnder ((machine Unit oneSegment).after s) ((oneGuard s₀).after tr) es s' ∧
      s'.Quiet ∧ s'.poller.pc = .idle := by
  obtain ⟨s₀, s₁, tr, s, hr, hn, hstart, h, harr, hc, hw, hlen, hq, hl, hp⟩ := one_handed
  have h₁ := h.step (Step.arrive 0 0 5 (by decide)) ⟨⟨fun id v hmem _ => by
    obtain ⟨-, rfl, rfl⟩ := Event.arrive.inj (List.mem_singleton.mp hmem)
    exact ⟨rfl, harr 0⟩, by simp⟩, by simp [hc], by simp⟩
  have h₂ := h₁.step (Step.pollStart (congrArg Poller.pc hp))
    (oneGuard_silent (by simp) (by simp [hc]))
  obtain ⟨s₂, tr₂, h₂, hall, hc₂, hw₂, hlen₂, hq₂, hl₂, hp₂, hn₂⟩ : ∃ s₂ tr₂,
      ReachUnder ((machine Unit oneSegment).after s₁) (oneGuard s₀) tr₂ s₂ ∧
      AllArrived s₀ oneValue tr₂ ∧ s₂.calls () = .idle ∧ (s₂.objects 0).toWait = oneValue ∧
      s₂.freeSlots.length < numEntries ∧ s₂.queues = Function.update (fun _ => []) 0 [0] ∧
      s₂.lists = (fun _ => []) ∧ s₂.poller = ⟨.segment, 0, []⟩ ∧ s₂.notifications (0, 0) = 5 := by
    refine ⟨_, _, h₂, fun id hcov => ?_, hc, hw, hlen, hq, hl, rfl,
      Function.update_self (0, 0) 5 s.notifications⟩
    obtain rfl : id = 0 := by
      have := hcov.2
      simp only [oneValue] at this
      omega
    exact .inr ⟨5, by simp [oneValue]⟩
  have hstay : ReachUnder ((machine Unit oneSegment).after s₂) ((oneGuard s₀).after tr₂) [] s₂ :=
    .init rfl
  have h₃ := hstay.step (Step.pollSegment (congrArg Poller.pc hp₂) (by rw [hp₂]; exact Nat.one_pos))
    (oneGuard_silent (by simp) (by simp [hc₂]))
  obtain ⟨s₃, tr₃, h₃, hc₃, hw₃, hlen₃, hq₃, hl₃, hp₃, hn₃⟩ : ∃ s₃ tr₃,
      ReachUnder ((machine Unit oneSegment).after s₂) ((oneGuard s₀).after tr₂) tr₃ s₃ ∧
      s₃.calls () = .idle ∧ (s₃.objects 0).toWait = oneValue ∧
      s₃.freeSlots.length < numEntries ∧ s₃.queues = Function.update (fun _ => []) 0 [0] ∧
      s₃.lists = (fun _ => []) ∧ s₃.poller = ⟨.dequeue 1, 0, []⟩ ∧
      s₃.notifications (0, 0) = 5 := by
    refine ⟨_, _, h₃, hc₂, hw₂, hlen₂, hq₂, hl₂, ?_, hn₂⟩
    show Poller.mk (.dequeue (s₂.queues s₂.poller.seg).length) s₂.poller.seg
      s₂.poller.completeRanges = _
    rw [hp₂, hq₂]
    rfl
  have h₄ := h₃.step (Step.pollDequeue (x := 0) (congrArg Poller.pc hp₃) (by rw [hp₃, hq₃]; rfl))
    (oneGuard_silent (by simp) (by simp [hc₃]))
  have h₅ := h₄.step (Step.pollDequeued rfl)
    (oneGuard_silent (by simp) (by simp [hc₃, State.setPc]))
  obtain ⟨s₅, tr₅, h₅, hc₅, hw₅, hlen₅, hq₅, hl₅, hp₅, hn₅⟩ : ∃ s₅ tr₅,
      ReachUnder ((machine Unit oneSegment).after s₂) ((oneGuard s₀).after tr₂) tr₅ s₅ ∧
      s₅.calls () = .idle ∧ (s₅.objects 0).toWait = oneValue ∧
      s₅.freeSlots.length < numEntries ∧ s₅.queues = (fun _ => []) ∧
      s₅.lists = Function.update (fun _ => []) 0 [0] ∧ s₅.poller = ⟨.scan 0, 0, []⟩ ∧
      s₅.notifications (0, 0) = 5 := by
    refine ⟨_, _, h₅, hc₃, hw₃, hlen₃, ?_, ?_, ?_, hn₃⟩
    · show Function.update s₃.queues s₃.poller.seg [] = _
      rw [hp₃, hq₃, Function.update_idem]
      exact Function.update_eq_self 0 _
    · show Function.update s₃.lists s₃.poller.seg (s₃.lists s₃.poller.seg ++ [0]) = _
      rw [hp₃, hl₃]
      rfl
    · show Poller.mk (.scan 0) s₃.poller.seg s₃.poller.completeRanges = _
      rw [hp₃]
  have h₆ := h₅.step (Step.pollCheck (x := 0) (congrArg Poller.pc hp₅) (by rw [hp₅, hl₅]; rfl))
    (oneGuard_silent (by simp) (by simp [hc₅]))
  have hbegin : s₅.beginCheck 0 = ⟨oneValue, .one, .member 0, 1, .waitsome⟩ := by
    simp [State.beginCheck, hw₅, oneValue]
  rw [hbegin] at h₆
  have h₇ := h₆.step (Step.waitsome (a := .poller) 0 rfl rfl ⟨Nat.le_refl 0, Nat.one_pos⟩
    (by show s₅.notifications (0, 0) ≠ 0; rw [hn₅]; decide))
    (oneGuard_silent (by simp) (by simp [hc₅, State.setPc]))
  obtain ⟨s₇, tr₇, h₇, hc₇, hw₇, hlen₇, hq₇, hl₇, hp₇, hn₇⟩ : ∃ s₇ tr₇,
      ReachUnder ((machine Unit oneSegment).after s₂) ((oneGuard s₀).after tr₂) tr₇ s₇ ∧
      s₇.calls () = .idle ∧ (s₇.objects 0).toWait = oneValue ∧
      s₇.freeSlots.length < numEntries ∧ s₇.queues = (fun _ => []) ∧
      s₇.lists = Function.update (fun _ => []) 0 [0] ∧
      s₇.poller = ⟨.checking 0 0 ⟨oneValue, .one, .member 0, 1, .reset 0⟩, 0, []⟩ ∧
      s₇.notifications (0, 0) = 5 := by
    refine ⟨_, _, h₇, hc₅, hw₅, hlen₅, hq₅, hl₅, ?_, hn₅⟩
    show Poller.mk _ s₅.poller.seg s₅.poller.completeRanges = _
    rw [hp₅]
    rfl
  have h₈ := h₇.step (Step.reset (a := .poller) (c := ⟨oneValue, .one, .member 0, 1, .reset 0⟩)
    (by rw [State.check, hp₇]) rfl hn₇)
    (oneGuard_silent (by simp +contextual [Check.writes]) (by simp [hc₇]))
  obtain ⟨s₈, tr₈, h₈, hc₈, hw₈, hlen₈, hq₈, hl₈, hp₈⟩ : ∃ s₈ tr₈,
      ReachUnder ((machine Unit oneSegment).after s₂) ((oneGuard s₀).after tr₂) tr₈ s₈ ∧
      s₈.calls () = .idle ∧ (s₈.objects 0).toWait = oneValue ∧
      s₈.freeSlots.length < numEntries ∧ s₈.queues = (fun _ => []) ∧
      s₈.lists = Function.update (fun _ => []) 0 [0] ∧
      s₈.poller = ⟨.checking 0 0 ⟨oneValue, .one, .member 0, 0, .returned⟩, 0, []⟩ := by
    refine ⟨_, _, h₈, ?_, ?_, ?_, ?_, ?_, ?_⟩
    case refine_6 =>
      simp only [State.setCheck, State.storeNotification, State.store, State.takeNotification, hp₇]
      rfl
    all_goals
      simp [State.setCheck, State.storeNotification, State.store, State.takeNotification, hp₇, hc₇,
        hw₇, hlen₇, hq₇, hl₇]
  have h₉ := h₈.step (Step.pollChecked (congrArg Poller.pc hp₈) rfl)
    (oneGuard_silent (by simp [State.copyBackEvents, hw₈, oneValue]) (by simp [hc₈]))
  obtain ⟨s₉, tr₉, h₉, hc₉, hq₉, hl₉, hp₉⟩ : ∃ s₉ tr₉,
      ReachUnder ((machine Unit oneSegment).after s₂) ((oneGuard s₀).after tr₂) tr₉ s₉ ∧
      s₉.calls () = .idle ∧ s₉.queues = (fun _ => []) ∧
      s₉.lists = (fun _ => []) ∧ s₉.poller = ⟨.scan 0, 0, [0]⟩ := by
    refine ⟨_, _, h₉, ?_, ?_, ?_, ?_⟩
    all_goals
      simp [State.advance, State.setRemaining, State.copyBack, hw₈, hc₈, hp₈, hq₈, hl₈, oneValue]
  have h₁₀ := h₉.step (Step.pollScanned (congrArg Poller.pc hp₉) (by rw [hp₉, hl₉]; rfl))
    (oneGuard_silent (by simp) (by simp [hc₉]))
  have h₁₁ := h₁₀.step (Step.pollComplete rfl (congrArg Poller.completeRanges hp₉))
    (oneGuard_silent (by simp) (by simp [hc₉, State.setPc]))
  have h₁₂ := h₁₁.step (Step.pollFree rfl (congrArg Poller.completeRanges hp₉))
    (oneGuard_silent (by simp) (by simp [hc₉, State.setPc]))
  have h₁₃ := h₁₂.step (Step.pollNext rfl rfl)
    (oneGuard_silent (by simp) (by simp [hc₉, State.setPc]))
  have h₁₄ := h₁₃.step (Step.pollEnd rfl (by
    show ¬ (s₉.poller.seg + 1) % 2 ^ oneSegment.segmentBits < oneSegment.maxSegments
    rw [hp₉]
    decide))
    (oneGuard_silent (by simp) (by simp [hc₉, State.setPc]))
  refine ⟨s₀, s₁, _, _, _, _, hr, hn, hstart, h₂, hall, hc₂, hp₂, h₁₄,
    ⟨?_, ?_, ?_, rfl, by simp [State.setPc]⟩, rfl⟩
  all_goals simp [hc₉, hq₉, hl₉, State.setPc, free_queues]

/-- After the pass. -/
theorem one_polled :
    ∃ s₀ s₁ tr s, Initial s₀ ∧ s₀.notifications = (fun _ => 0) ∧
      Step oneSegment s₀ [.start () oneValue] s₁ ∧
      ReachUnder ((machine Unit oneSegment).after s₁) (oneGuard s₀) tr s ∧
      AllArrived s₀ oneValue tr ∧ s.Quiet ∧ s.poller.pc = .idle := by
  obtain ⟨s₀, s₁, tr, s, es, s', hi, hn, hstart, hrun, hall, -, -, hpass, hquiet, hpc⟩ := one_pass
  exact ⟨s₀, s₁, tr ++ es, s', hi, hn, hstart, hrun.trans hpass,
    fun id hcov => (hall id hcov).append es, hquiet, hpc⟩

/-- The value is in the buffer in the end, although the call found nothing. -/
theorem wait_completes_one :
    ∃ s₀ s₁, Step oneSegment s₀ [.start () oneValue] s₁ ∧
      ∃ e : Execution ((machine Unit oneSegment).after s₁),
        (∃ m, AllArrived s₀ oneValue (e.trace m)) ∧ ∃ n, ∀ m, n ≤ m →
          completions oneValue (e.trace m) = 1 ∧ lastWrite oneValue 0 (e.trace m) = some 5 := by
  obtain ⟨s₀, s₁, tr, s, hi, hn, hstart, hrun, hall, hquiet, -⟩ := one_polled
  obtain ⟨e, N, hend, rfl, hC⟩ := hrun.execution
  -- after the notification the poller finds nothing
  obtain ⟨e', hsame, hevents, hafter⟩ := Execution.EndsAt.forever (P := State.Quiet)
    (A := fun _ s es s' => PollerMoves oneSegment s es s' ∧ es = [])
    (fun _ _ hP =>
      let ⟨s', hmove, hP'⟩ := hP.next oneSegment
      ⟨[], s', ⟨hmove, rfl⟩, hP'⟩) hend hquiet
    fun _ _ _ _ h => h.1.1
  have harrive : AllArrived s₀ oneValue (e'.trace N) := by
    rw [(hsame N (Nat.le_refl N)).2]
    exact hall
  have hguard : ∀ n, oneGuard s₀ (e'.trace n) (e'.state n) (e'.events n) := by
    intro n
    by_cases hN : n < N
    · rw [(hsame n (Nat.le_of_lt hN)).1, (hsame n (Nat.le_of_lt hN)).2, hevents n hN]
      exact hC n hN
    · obtain ⟨k, rfl⟩ := Nat.exists_eq_add_of_le (Nat.le_of_not_lt hN)
      rw [(hafter k).2.2]
      exact oneGuard_silent (by simp) (by simp [(hafter k).1.calls])
  have hpoll : e'.WeaklyFair (PollerMoves oneSegment) := fun n _ =>
    ⟨N + n, Nat.le_add_left .., (hafter n).2.1⟩
  have hcall : e'.WeaklyFair (CallMoves oneSegment ()) := by
    intro n hen
    obtain ⟨es, s', -, hbusy, -⟩ := hen (N + n) (Nat.le_add_left ..)
    exact absurd (hafter n).1.calls hbusy
  have hpend : ∀ id, oneValue.covers id → s₀.notifications (oneValue.segment, id) ≠ 0 →
      s₀.notifications (oneValue.segment, id) = id + 5 :=
    fun id _ hval => absurd (by rw [hn]) hval
  obtain ⟨n, hdone⟩ := wait_completes (by decide) (.init hi) hpend hstart e'
    (fun n => (hguard n).1) ⟨N, harrive⟩ hpoll hcall fun n r => (hguard n).2.1 r
  exact ⟨s₀, s₁, hstart, e', ⟨N, harrive⟩, n, fun m hm =>
    ⟨(hdone m hm).1, (hdone m hm).2 100 0 rfl Nat.one_pos⟩⟩

end Tagaspi
