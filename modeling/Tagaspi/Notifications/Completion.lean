import Tagaspi.Notifications.Accounting

/-!
# When a wait completes

An operation remembers how many notifications it still misses, not which ones.
So it completes after `numIds` resets on ids of its range, and these need not be
resets of `numIds` different ids: a sender that notifies an id again while the
operation is waiting for another one is counted twice
(`waitall_completes_early`). An operation that is spared such second notifications
(`noRenotification`) completes only after every id of its range has been reset, whatever
happens to the others (`waitall_completion`).
-/

namespace Tagaspi

open Lts Containers

variable {T : Type}

/-- When `w` completes, each of its ids has been reset for it with a nonzero value. -/
def CompletesAll (w : Wait) (pre : List (Event T)) : Event T → Prop
  | .returned w' => w' = w → ∀ id, w.covers id → id ∈ credits w pre
  | .complete _ w' _ => w' = w → ∀ id, w.covers id → id ∈ credits w pre
  | _ => True

/-- Every operation that completes has been credited `numIds` nonzero resets, all on
ids of its range. -/
def CompletesCounted (pre : List (Event T)) : Event T → Prop
  | .returned w => (credits w pre).length = w.numIds ∧ ∀ id ∈ credits w pre, w.covers id
  | .complete _ w _ => (credits w pre).length = w.numIds ∧ ∀ id ∈ credits w pre, w.covers id
  | _ => True

/-- While `w` misses something, no id is notified again that it has already received. -/
def noRenotification (w : Wait) : Guard (State T) (Event T) := fun tr s es =>
  ∀ id v, Event.arrive w.segment id v ∈ es →
    ∀ k r, s.live k = some (w, r + 1) → id ∉ credits w tr

/-! ## Reading the credits -/

theorem mem_credits {w : Wait} {id : Nat} {tr : List (Event T)} :
    id ∈ credits w tr ↔ ∃ a v, Event.reset a w id v ∈ tr ∧ v ≠ 0 := by
  unfold credits
  rw [List.mem_filterMap]
  constructor
  · rintro ⟨e, he, heq⟩
    cases e with
    | reset a w' id' v =>
      simp only [Event.creditOf] at heq
      by_cases hc : w' = w ∧ v ≠ 0
      · rw [if_pos hc, Option.some.injEq] at heq
        obtain ⟨rfl, hv⟩ := hc
        subst heq
        exact ⟨a, v, he, hv⟩
      · rw [if_neg hc] at heq
        cases heq
    | _ => cases heq
  · rintro ⟨a, v, he, hv⟩
    exact ⟨_, he, if_pos ⟨rfl, hv⟩⟩

theorem credits_append (w : Wait) (tr es : List (Event T)) :
    credits w (tr ++ es) = credits w tr ++ credits w es :=
  List.filterMap_append ..

/-- Events that mean nothing to the ledger credit nothing. -/
theorem credits_of_silent {w : Wait} {es : List (Event T)} (h : es.filterMap ledgerEvent = []) :
    credits w es = [] := by
  rw [← items_ledger, h]
  rfl

theorem credits_reset (w : Wait) (a : Agent T) (c : Check) (id v : Nat) :
    credits w (.reset a c.wait id v :: c.writes id v) =
      if c.wait = w ∧ v ≠ 0 then [id] else [] := by
  have hwrites : credits w (c.writes id v : List (Event T)) = [] :=
    credits_of_silent (filterMap_writes c id v)
  unfold credits at hwrites ⊢
  by_cases hc : c.wait = w ∧ v ≠ 0
  · have he : Event.creditOf w (.reset a c.wait id v) = some id := if_pos hc
    rw [List.filterMap_cons_some he, hwrites, if_pos hc]
  · have he : Event.creditOf w (.reset a c.wait id v) = none := if_neg hc
    rw [List.filterMap_cons_none he, hwrites, if_neg hc]

/-- **Counting is enough when nothing is counted twice.** -/
theorem covers_of_nodup {w : Wait} {l : List Nat} (hnd : l.Nodup) (hcov : ∀ id ∈ l, w.covers id)
    (hlen : l.length = w.numIds) : ∀ id, w.covers id → id ∈ l := by
  have hsub : l.toFinset ⊆ Finset.Ico w.firstId (w.firstId + w.numIds) := by
    intro id hid
    rw [Finset.mem_Ico]
    exact hcov id (List.mem_toFinset.mp hid)
  have hcard : (Finset.Ico w.firstId (w.firstId + w.numIds)).card ≤ l.toFinset.card := by
    rw [List.toFinset_card_of_nodup hnd, Nat.card_Ico, hlen]
    omega
  have heq := Finset.eq_of_subset_of_card_le hsub hcard
  intro id hid
  rw [← List.mem_toFinset, heq, Finset.mem_Ico]
  exact hid

variable [DecidableEq T] {cfg : Limits}

/-- What a step does to the notifications GASPI holds: one arrives, or values are
taken away. -/
theorem Step.notifications_cases {s s' : State T} {es : List (Event T)} (hs : Step cfg s es s') :
    (∃ g id v, es = [.arrive g id v] ∧
      s'.notifications = Function.update s.notifications (g, id) v) ∨
    (∀ p, s'.notifications p = s.notifications p ∨ s'.notifications p = 0) := by
  cases hs with
  | arrive segment id value hv => exact Or.inl ⟨segment, id, value, rfl, rfl⟩
  | timeout hc hpc hnone => exact Or.inr fun p => Or.inl (by simp)
  | waitsome id hc hpc hid hval => exact Or.inr fun p => Or.inl (by simp)
  | @reset a c id value hc hpc hval =>
    refine Or.inr fun p => ?_
    rw [State.setCheck_notifications, take_notifications]
    by_cases hp : p = (c.wait.segment, id)
    · subst hp
      exact Or.inr (Function.update_self ..)
    · exact Or.inl (Function.update_of_ne hp ..)
  | pollChecked hpc hret => exact Or.inr fun p => Or.inl (by simp)
  | pollFree hpc hc => exact Or.inr fun p => Or.inl (by simp)
  | _ => exact Or.inr fun p => Or.inl rfl

/-! ## Operations without a second notification -/

section Distinct

variable {w : Wait} {tr es : List (Event T)} {s s' : State T}

/-- Nothing is counted twice: the credits of `w` are on different ids, and while it waits, no
id that it has received is notified. -/
structure Distinct (w : Wait) (tr : List (Event T)) (s : State T) : Prop where
  nodup : (credits w tr).Nodup
  cleared : ∀ k r, s.live k = some (w, r + 1) →
    ∀ id ∈ credits w tr, s.notifications (w.segment, id) = 0

omit [DecidableEq T] in
/-- A step that credits `w` nothing and does not open it keeps its credits distinct. -/
theorem Distinct.of_no_credit (h : Distinct w tr s) (hes : credits w es = [])
    (hlive : ∀ k r, s'.live k = some (w, r + 1) →
      credits w tr = [] ∨ ∃ k', s.live k' = some (w, r + 1))
    (hnot : ∀ k r, s.live k = some (w, r + 1) → ∀ id ∈ credits w tr,
      s'.notifications (w.segment, id) = 0) : Distinct w (tr ++ es) s' := by
  have hcred : credits w (tr ++ es) = credits w tr := by
    rw [credits_append, hes, List.append_nil]
  refine ⟨by rw [hcred]; exact h.nodup, fun k r hk id hid => ?_⟩
  rw [hcred] at hid
  rcases hlive k r hk with hempty | ⟨k', hk'⟩
  · rw [hempty] at hid
    cases hid
  · exact hnot k' r hk' id hid

/-- What `w` has received stays reset as long as it waits. -/
theorem Distinct.kept (h : Distinct w tr s) (hs : Step cfg s es s')
    (hguard : noRenotification w tr s es) {k : Carrier T} {r id : Nat}
    (hk : s.live k = some (w, r + 1)) (hid : id ∈ credits w tr) :
    s'.notifications (w.segment, id) = 0 := by
  rcases hs.notifications_cases with ⟨g, id', v, rfl, hnot⟩ | hnot
  · have hne : (w.segment, id) ≠ (g, id') := by
      intro heq
      obtain ⟨rfl, rfl⟩ := Prod.mk.inj heq
      exact hguard id v (List.mem_singleton.mpr rfl) k r hk hid
    rw [hnot, Function.update_of_ne hne]
    exact h.cleared k r hk id hid
  · rcases hnot (w.segment, id) with heq | heq
    · rw [heq]
      exact h.cleared k r hk id hid
    · exact heq

omit [DecidableEq T] in
/-- A nonzero reset for `w` credits an id that it has not received yet. -/
theorem Distinct.credit {a : Agent T} {c : Check} {id v r₀ : Nat} {k₀ : Carrier T}
    (h : Distinct c.wait tr s) (hk₀ : s.live k₀ = some (c.wait, r₀ + 1))
    (hv : v = s.notifications (c.wait.segment, id)) (hv0 : v ≠ 0)
    (hz : s'.notifications (c.wait.segment, id) = 0)
    (hkept : ∀ id ∈ credits c.wait tr, s'.notifications (c.wait.segment, id) = 0) :
    Distinct c.wait (tr ++ .reset a c.wait id v :: c.writes id v) s' := by
  have hnew : id ∉ credits c.wait tr := by
    intro hid
    have := h.cleared k₀ r₀ hk₀ id hid
    omega
  have hcred : credits c.wait (tr ++ .reset a c.wait id v :: c.writes id v) =
      credits c.wait tr ++ [id] := by
    rw [credits_append, credits_reset, if_pos ⟨rfl, hv0⟩]
  refine ⟨?_, fun _ _ _ id' hid' => ?_⟩
  · rw [hcred, List.nodup_append]
    refine ⟨h.nodup, List.nodup_singleton _, fun x hx y hy => ?_⟩
    rw [List.mem_singleton] at hy
    rintro rfl
    exact hnew (hy ▸ hx)
  · rw [hcred, List.mem_append, List.mem_singleton] at hid'
    rcases hid' with hid' | rfl
    · exact hkept id' hid'
    · exact hz

theorem distinct_step (hr : Reach (machine T cfg) tr s) (h : Distinct w tr s)
    (hs : Step cfg s es s') (hguard : noRenotification w tr s es) : Distinct w (tr ++ es) s' := by
  have hacc := accounts_machine hr
  have hkept : ∀ k r, s.live k = some (w, r + 1) → ∀ id ∈ credits w tr,
      s'.notifications (w.segment, id) = 0 := fun k r hk id hid => h.kept hs hguard hk hid
  cases live_step (owned_reach hr) hs with
  | silent hl hn he =>
    exact h.of_no_credit (credits_of_silent he) (fun k r hk => .inr ⟨k, hl ▸ hk⟩) hkept
  | @start _ t w₀ hk₀ hw hl hn =>
    refine h.of_no_credit rfl (fun k r hk => ?_) hkept
    rw [hl] at hk
    by_cases hkt : k = .frame t
    · subst hkt
      rw [Function.update_self] at hk
      obtain rfl : w₀ = w := (Prod.mk.inj (Option.some.inj hk)).1
      refine .inl (List.eq_nil_iff_forall_not_mem.mpr fun id hid => ?_)
      rw [← items_ledger, Ledger.mem_items] at hid
      exact hacc.no_history (e := .credit w₀ id) (Nat.le_of_eq hw.symm) rfl hid
    · rw [Function.update_of_ne hkt] at hk
      exact .inr ⟨k, hk⟩
  | @reset _ a c id v r₀ k₀ hc hcov hv hk₀ hl hn hz =>
    by_cases hcredit : c.wait = w ∧ v ≠ 0
    · obtain ⟨rfl, hv0⟩ := hcredit
      exact h.credit hk₀ hv hv0 hz (hkept k₀ r₀ hk₀)
    · refine h.of_no_credit ?_ (fun k r hk => .inr ⟨k, ?_⟩) hkept
      · rw [credits_reset, if_neg hcredit]
      · rw [hl] at hk
        by_cases hv0 : v ≠ 0
        · -- another operation has been credited
          rw [if_pos hv0] at hk
          rcases update_cases hk with ⟨-, heq⟩ | ⟨-, hk⟩
          · exact absurd ⟨(Prod.mk.inj (Option.some.inj heq)).1, hv0⟩ hcredit
          · exact hk
        · rwa [if_neg hv0] at hk
  | @move _ x w₀ r₀ t hk₀ hx hl hn =>
    refine h.of_no_credit rfl (fun k r hk => .inr ?_) hkept
    rw [hl] at hk
    rcases update_cases hk with ⟨-, heq⟩ | ⟨-, hk⟩
    · exact ⟨.frame t, hk₀.trans heq⟩
    · rcases update_cases hk with ⟨-, heq⟩ | ⟨-, hk⟩
      · cases heq
      · exact ⟨k, hk⟩
  | @finish _ k₀ w₀ e hk₀ hl hn he =>
    refine h.of_no_credit ?_ (fun k r hk => .inr ⟨k, ?_⟩) hkept
    · rw [← items_ledger, List.filterMap_cons_some he]
      rfl
    · rw [hl] at hk
      rcases update_cases hk with ⟨-, heq⟩ | ⟨-, hk⟩
      · cases heq
      · exact hk

theorem distinct_reach (h : ReachUnder (machine T cfg) (noRenotification w) tr s) :
    Distinct w tr s := by
  refine ReachUnder.invariant (I := fun tr s => Distinct w tr s) ?_ ?_ h
  · intro s _
    exact ⟨List.nodup_nil, fun k r _ id hid => by cases hid⟩
  · intro tr es s s' hr hd hs hguard
    exact distinct_step hr.reach hd hs hguard

end Distinct

/-! ## Completion -/

omit [DecidableEq T] in
/-- The ids credited to an operation are ids of its range. -/
theorem credits_covered {tr : List (Event T)} (h : Causal WaitsInOrder tr) {w : Wait} {id : Nat}
    (hid : id ∈ credits w tr) : w.covers id := by
  obtain ⟨a, v, hmem, -⟩ := mem_credits.mp hid
  obtain ⟨pre, post, rfl⟩ := List.append_of_mem hmem
  exact (h pre _ post rfl).2.2.1

/-- What a completion rests on in every run. -/
theorem completesCounted_reach {tr : List (Event T)} {s : State T}
    (h : Reach (machine T cfg) tr s) : Causal CompletesCounted tr := by
  have horder := waitsInOrder_of_ledger (accounts_machine h).inOrder
  intro pre e post heq
  have hgood := horder pre e post heq
  have hpre : Causal WaitsInOrder pre := by
    intro pre' e' post' heq'
    refine horder pre' e' (post' ++ e :: post) ?_
    rw [heq, heq', List.append_assoc, List.cons_append]
  cases e with
  | returned w => exact ⟨hgood.2.2, fun id hid => credits_covered hpre hid⟩
  | complete x w t => exact ⟨hgood.2.2, fun id hid => credits_covered hpre hid⟩
  | _ => trivial

/-- **When a wait completes.** In every run an operation completes only after
`numIds` nonzero resets executed for it on ids of its range. If no id that the operation has
already received is notified again while it waits, it completes only after every id of its
range has been reset. -/
theorem waitall_completion :
    (∀ (tr : List (Event T)) (s : State T), Reach (machine T cfg) tr s →
      Causal CompletesCounted tr) ∧
    (∀ (w : Wait) (tr : List (Event T)) (s : State T),
      ReachUnder (machine T cfg) (noRenotification w) tr s → Causal (CompletesAll w) tr) := by
  refine ⟨fun tr s h => completesCounted_reach h, fun w tr s h => ?_⟩
  have hcount := completesCounted_reach h.reach
  have hnodup := (distinct_reach h).nodup
  intro pre e post heq
  have hgood := hcount pre e post heq
  have hpre : (credits w pre).Nodup := by
    rw [heq, credits_append] at hnodup
    exact hnodup.of_append_left
  cases e with
  | returned w' =>
    rintro rfl
    exact covers_of_nodup hpre hgood.2 hgood.1
  | complete x w' t =>
    rintro rfl
    exact covers_of_nodup hpre hgood.2 hgood.1
  | _ => trivial

/-- A task that checks many ids takes one that is notified. -/
theorem reach_collect {M : System (State T) (Event T)} {C : Guard (State T) (Event T)}
    (hM : ∀ s es s', Step cfg s es s' → M.step s es s') {tr : List (Event T)} {s : State T}
    (h : ReachUnder M C tr s) {t : T} {c : Check} (hc : s.calls t = .checking c)
    (hpc : c.pc = .waitsome) (hmany : c.routine = .many) {id v : Nat} (hid : c.wait.covers id)
    (hval : s.notifications (c.wait.segment, id) = v) (hv : v ≠ 0)
    (hguard : ∀ s es, (∀ e ∈ es, (∃ w i v', e = .write w i v') ∨ e = .reset (.task t) c.wait id v) →
      C tr s es) :
    ∃ s', ReachUnder M C (tr ++ .reset (.task t) c.wait id v :: c.writes id v) s' ∧
      s'.calls t = .checking (c.checkNotifications v) ∧
      s'.notifications = Function.update s.notifications (c.wait.segment, id) 0 := by
  have hfound : c.afterWaitsome id = { c with pc := .reset id } := by
    rw [Check.afterWaitsome, hmany]
  have hafter : ({ c with pc := .reset id } : Check).afterReset v = c.checkNotifications v := by
    unfold Check.afterReset Check.checkNotifications
    simp only [hmany, if_pos hv]
  have h₁ := h.step (hM _ _ _ (Step.waitsome (a := .task t) (c := c) id (by simp [State.check, hc])
    hpc hid (by rw [hval]; exact hv))) (hguard _ _ (by simp))
  rw [hfound, List.append_nil] at h₁
  have h₂ := h₁.step (hM _ _ _ (Step.reset (a := .task t) (c := { c with pc := .reset id })
    (by simp [State.check, State.setCheck]) rfl (by simpa using hval)))
    (hguard _ _ fun e he => by
      rcases mem_reset he with rfl | rfl
      · exact Or.inr rfl
      · exact Or.inl ⟨_, _, _, rfl⟩)
  rw [hafter] at h₂
  refine ⟨_, h₂, Function.update_self .., ?_⟩
  rw [State.setCheck_notifications, take_notifications, State.setCheck_notifications]

/-- While a task checks many ids, one of them is notified and taken. -/
theorem reach_take {C : Guard (State T) (Event T)} {tr : List (Event T)} {s : State T}
    (h : ReachUnder (machine T cfg) C tr s) {t : T} {c : Check} (hc : s.calls t = .checking c)
    (hpc : c.pc = .waitsome) (hmany : c.routine = .many) (id v : Nat) (hid : c.wait.covers id)
    (hv : v ≠ 0)
    (hguard : ∀ pre s es, (∀ g i v', Event.arrive g i v' ∈ es → i = id ∧ pre = tr) → C pre s es) :
    ∃ s', ReachUnder (machine T cfg) C
        (tr ++ ([.arrive c.wait.segment id v] ++
          .reset (.task t) c.wait id v :: c.writes id v)) s' ∧
      s'.calls t = .checking (c.checkNotifications v) := by
  have h₁ := h.step (Step.arrive c.wait.segment id v hv)
    (hguard _ _ _ fun g i v' hmem => by simp at hmem; exact ⟨hmem.2.1, rfl⟩)
  obtain ⟨s', h₂, hc', -⟩ := reach_collect (fun _ _ _ hs => hs) h₁ hc hpc hmany hid
    (Function.update_self ..) hv fun s es hes => hguard _ _ _ fun g i v' hmem => by
      rcases hes _ hmem with ⟨w, i', v'', heq⟩ | heq <;> cases heq
  rw [List.append_assoc] at h₂
  exact ⟨s', h₂, hc'⟩

/-- A waitall on ids 0 and 1. -/
def twoIds : Wait := ⟨0, 0, 0, 2, none⟩

/-- The waitall on two ids starts. -/
theorem reach_twoIds (C : Guard (State Unit) (Event Unit))
    (hguard : ∀ s, C [] s [.start () twoIds]) :
    ∃ s, ReachUnder (machine Unit oneSegment) C ([] ++ [.start () twoIds]) s ∧
      s.calls () = .checking (.notifyAsyncWaitall twoIds) := by
  obtain ⟨rest, hrest⟩ := range_numEntries
  have h₀ : ReachUnder (machine Unit oneSegment) C [] (State.fresh (0 :: rest) 0) :=
    .init (initial_fresh hrest.symm 0)
  exact ⟨_, h₀.step (Step.notifyAsyncWaitall () 0 0 2 none rfl Nat.one_pos (by decide)
    (by decide)) (hguard _), rfl⟩

/-- Ids 0 and 1 are notified once each: the run meets the condition and the call
returns after both. -/
theorem waitall_completion_two :
    ∃ tr s, ReachUnder (machine Unit oneSegment) (noRenotification twoIds) tr s ∧
      Completed twoIds tr ∧ Causal (CompletesAll twoIds) tr := by
  obtain ⟨s₁, h₁, hc₁⟩ := reach_twoIds (noRenotification twoIds) fun s id v hmem => by
    simp at hmem
  obtain ⟨s₂, h₂, hc₂⟩ := reach_take h₁ hc₁ rfl rfl 0 5
    ⟨Nat.le_refl _, Nat.two_pos⟩ (by decide) fun pre s es hes id v hmem k r _ hid => by
      obtain ⟨rfl, rfl⟩ := hes _ id v hmem
      simp [mem_credits] at hid
  obtain ⟨s₃, h₃, hc₃⟩ := reach_take h₂ hc₂ (by decide) (by decide) 1 6
    ⟨Nat.zero_le _, Nat.one_lt_two⟩ (by decide) fun pre s es hes id v hmem k r _ hid => by
      obtain ⟨rfl, rfl⟩ := hes _ id v hmem
      simp [mem_credits, Check.writes, Check.notifyAsyncWaitall, twoIds, Target.ofPointer] at hid
  have h₄ := h₃.step (Step.callReturn hc₃ (by decide) (by decide)) fun id v hmem => by
    simp at hmem
  refine ⟨_, _, h₄, Or.inl ?_, waitall_completion.2 _ _ _ h₄⟩
  exact List.mem_append_right _ (List.mem_singleton.mpr rfl)

/-- A waitall on two ids returns after two notifications of the first one: the
second id has never been notified. -/
theorem waitall_completes_early :
    ¬ ∀ (w : Wait) (tr : List (Event Unit)) (s : State Unit),
      Reach (machine Unit oneSegment) tr s → Causal (CompletesAll w) tr := by
  intro hall
  obtain ⟨s₁, h₁, hc₁⟩ := reach_twoIds Guard.free fun _ => trivial
  obtain ⟨s₂, h₂, hc₂⟩ := reach_take h₁ hc₁ rfl rfl 0 5
    ⟨Nat.le_refl _, Nat.two_pos⟩ (by decide) fun _ _ _ _ => trivial
  obtain ⟨s₃, h₃, hc₃⟩ := reach_take h₂ hc₂ (by decide) (by decide) 0 6
    ⟨Nat.le_refl _, Nat.two_pos⟩ (by decide) fun _ _ _ _ => trivial
  have h₄ := Reach.step h₃ (Step.callReturn hc₃ (by decide) (by decide))
  have hbad := hall twoIds _ _ h₄ _ _ [] rfl rfl 1 ⟨Nat.zero_le _, Nat.one_lt_two⟩
  exact absurd hbad (by decide)

end Tagaspi
