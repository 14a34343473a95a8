import Mathlib.Data.Nat.Find
import Mathlib.Order.WellFounded
import Tagaspi.Lib.Lts

/-!
# Infinite executions, fairness and progress

- `Execution M`: an infinite run of `M`. The system may pause at any position, so that a
  run that has come to its end is an execution as well.
- `WeaklyFair e A`: an action that stays enabled is taken in the end.
- `Ranking`, `Ranking.reached`: the rule of the helpful action. While the goal is not
  reached, one action is known to help. It is enabled, and it keeps being the one that helps
  until the rank has dropped, which it does at the latest when that action is taken.
- `ReachUnder.execution`, `EndsAt.forever`: a finite run is the beginning of an execution.
-/

namespace Lts

universe u v w x

variable {σ : Type u} {ε : Type v} {M : System σ ε}

/-- An infinite execution: at every position a step of `M` or a pause. -/
structure Execution (M : System σ ε) where
  state : Nat → σ
  events : Nat → List ε
  start : M.init (state 0)
  next : ∀ n, M.step (state n) (events n) (state (n + 1)) ∨
    (state (n + 1) = state n ∧ events n = [])

/-- Some of the steps. -/
abbrev Action (σ : Type u) (ε : Type v) := σ → List ε → σ → Prop

/-- The action can be taken. -/
def Enabled (A : Action σ ε) (s : σ) : Prop := ∃ es s', A s es s'

namespace Execution

/-- What the first `n` positions emit. -/
def trace (e : Execution M) : Nat → List ε
  | 0 => []
  | n + 1 => e.trace n ++ e.events n

/-- What an execution does up to a position is a run. -/
theorem reach (e : Execution M) (n : Nat) : Reach M (e.trace n) (e.state n) := by
  induction n with
  | zero => exact Reach.init e.start
  | succ n ih =>
    rcases e.next n with hs | ⟨hstate, hevents⟩
    · exact ih.step hs
    · show Reach M (e.trace n ++ e.events n) _
      rw [hstate, hevents, List.append_nil]
      exact ih

/-- An execution whose steps meet `C`. -/
theorem reachUnder (e : Execution M) {C : Guard σ ε}
    (hC : ∀ n, C (e.trace n) (e.state n) (e.events n)) (n : Nat) :
    ReachUnder M C (e.trace n) (e.state n) := by
  induction n with
  | zero => exact .init e.start
  | succ n ih =>
    rcases e.next n with hs | ⟨hstate, hevents⟩
    · exact ih.step hs (hC n)
    · show ReachUnder M C (e.trace n ++ e.events n) _
      rw [hstate, hevents, List.append_nil]
      exact ih

theorem mem_trace (e : Execution M) {n : Nat} {ev : ε} :
    ev ∈ e.trace n ↔ ∃ m < n, ev ∈ e.events m := by
  induction n with
  | zero => exact ⟨fun h => (by cases h), fun ⟨m, hm, _⟩ => absurd hm (Nat.not_lt_zero m)⟩
  | succ n ih =>
    show ev ∈ e.trace n ++ e.events n ↔ _
    rw [List.mem_append, ih]
    constructor
    · rintro (⟨m, hm, h⟩ | h)
      · exact ⟨m, Nat.lt_succ_of_lt hm, h⟩
      · exact ⟨n, Nat.lt_succ_self n, h⟩
    · rintro ⟨m, hm, h⟩
      rcases Nat.lt_or_eq_of_le (Nat.le_of_lt_succ hm) with hlt | rfl
      · exact .inl ⟨m, hlt, h⟩
      · exact .inr h

/-- The action is taken at position `n`. -/
def Takes (e : Execution M) (A : Action σ ε) (n : Nat) : Prop :=
  A (e.state n) (e.events n) (e.state (n + 1))

/-- An action that is enabled at every position from some one on is taken after it. -/
def WeaklyFair (e : Execution M) (A : Action σ ε) : Prop :=
  ∀ n, (∀ m, n ≤ m → Enabled A (e.state m)) → ∃ m, n ≤ m ∧ e.Takes A m

/-- An action that stays enabled is taken for a first time. -/
theorem WeaklyFair.first_taken {e : Execution M} {A : Action σ ε} (h : e.WeaklyFair A) {n : Nat}
    (hen : ∀ m, n ≤ m → Enabled A (e.state m)) :
    ∃ m, n ≤ m ∧ e.Takes A m ∧ ∀ p, n ≤ p → p < m → ¬ e.Takes A p := by
  classical
  have hex : ∃ m, n ≤ m ∧ e.Takes A m := h n hen
  refine ⟨Nat.find hex, (Nat.find_spec hex).1, (Nat.find_spec hex).2, fun p hp hlt htaken => ?_⟩
  exact Nat.find_min hex hlt ⟨hp, htaken⟩

/-- What holds at a position and is kept by every step after it holds from there on. -/
theorem stable (e : Execution M) {P : List ε → σ → Prop} {n : Nat}
    (hP : P (e.trace n) (e.state n))
    (hstep : ∀ m, n ≤ m → P (e.trace m) (e.state m) →
      M.step (e.state m) (e.events m) (e.state (m + 1)) →
      P (e.trace m ++ e.events m) (e.state (m + 1))) :
    ∀ m, n ≤ m → P (e.trace m) (e.state m) := by
  intro m hm
  induction m, hm using Nat.le_induction with
  | base => exact hP
  | succ m hm ih =>
    show P (e.trace m ++ e.events m) _
    rcases e.next m with hs | ⟨hstate, hevents⟩
    · exact hstep m hm ih hs
    · rw [hstate, hevents, List.append_nil]
      exact ih

/-- The execution from position `n` on. -/
def drop (e : Execution M) (n : Nat) : Execution (M.after (e.state n)) where
  state m := e.state (n + m)
  events m := e.events (n + m)
  start := rfl
  next m := e.next (n + m)

theorem drop_trace (e : Execution M) (n m : Nat) :
    e.trace (n + m) = e.trace n ++ (e.drop n).trace m := by
  induction m with
  | zero => exact (List.append_nil _).symm
  | succ m ih =>
    show e.trace (n + m) ++ e.events (n + m) = e.trace n ++ ((e.drop n).trace m ++ e.events (n + m))
    rw [ih, List.append_assoc]

theorem WeaklyFair.drop {e : Execution M} {A : Action σ ε} (h : e.WeaklyFair A) (n : Nat) :
    (e.drop n).WeaklyFair A := by
  intro k hen
  obtain ⟨m, hm, htaken⟩ := h (n + k) fun m hm => by
    have := hen (m - n) (by omega)
    rwa [show (e.drop n).state (m - n) = e.state m from congrArg e.state (by omega)] at this
  refine ⟨m - n, by omega, ?_⟩
  obtain ⟨p, rfl⟩ := Nat.exists_eq_add_of_le (Nat.le_of_add_right_le hm)
  rw [Nat.add_sub_cancel_left]
  exact htaken

section Image

variable {τ : Type w} {ε' : Type x} {N : System τ ε'}

/-- **An execution, seen through a simulation.** Where a step of `M` is no step of `N`, the image
pauses. -/
def image (e : Execution M) (f : σ → τ) (g : ε → Option ε')
    (hinit : ∀ s, M.init s → N.init (f s))
    (hstep : ∀ s es s', M.step s es s' →
      (f s' = f s ∧ es.filterMap g = []) ∨ N.step (f s) (es.filterMap g) (f s')) :
    Execution N where
  state n := f (e.state n)
  events n := (e.events n).filterMap g
  start := hinit _ e.start
  next n := by
    rcases e.next n with hs | ⟨hstate, hevents⟩
    · exact (hstep _ _ _ hs).symm
    · exact .inr ⟨by rw [hstate], by rw [hevents]; rfl⟩

end Image

/-- What becomes true of each of finitely many things, for good, becomes true of all of them. -/
theorem eventually_all {α : Type w} {P : α → Nat → Prop} (hmono : ∀ a n m, n ≤ m → P a n → P a m)
    {l : List α} (h : ∀ a ∈ l, ∃ n, P a n) : ∃ n, ∀ a ∈ l, P a n := by
  induction l with
  | nil => exact ⟨0, fun a ha => by cases ha⟩
  | cons a l ih =>
    obtain ⟨n, hn⟩ := h a (List.mem_cons_self ..)
    obtain ⟨m, hm⟩ := ih fun b hb => h b (List.mem_cons_of_mem _ hb)
    refine ⟨max n m, fun b hb => ?_⟩
    rcases List.mem_cons.mp hb with rfl | hb
    · exact hmono _ _ _ (Nat.le_max_left ..) hn
    · exact hmono _ _ _ (Nat.le_max_right ..) (hm b hb)

end Execution

/-! ## The rule of the helpful action -/

/-- `waits k i s`: the goal `Q` is still to come, `k` is left to do, and the action `act i`
helps. `I` holds of every state on the way. -/
structure Ranking (M : System σ ε) {ι : Type w} (act : ι → Action σ ε)
    (I : List ε → σ → Prop) (Q : List ε → σ → Prop) {α : Type x} [Preorder α]
    (waits : α → ι → σ → Prop) : Prop where
  isStep : ∀ i s es s', act i s es s' → M.step s es s'
  enabled : ∀ tr s k i, I tr s → waits k i s → Enabled (act i) s
  /-- A step reaches the goal, or lowers the rank, or it is not the helpful action and leaves
  everything as it is. -/
  step : ∀ tr s es s' k i, I tr s → I (tr ++ es) s' → waits k i s → M.step s es s' →
    Q es s' ∨ (∃ k' < k, ∃ i', waits k' i' s') ∨ (waits k i s' ∧ ¬ act i s es s')

section Rule

variable {ι : Type w} {act : ι → Action σ ε} {I Q : List ε → σ → Prop} {α : Type x} [Preorder α]
  {waits : α → ι → σ → Prop}

/-- While neither the goal is reached nor the rank drops, the same action helps, and it is not
taken. -/
theorem Ranking.waits_on (h : Ranking M act I Q waits) (e : Execution M) {n : Nat}
    (hI : ∀ m, n ≤ m → I (e.trace m) (e.state m)) {k : α} {i : ι} (hw : waits k i (e.state n))
    (hQ : ∀ m, n ≤ m → ¬ Q (e.events m) (e.state (m + 1)))
    (hdrop : ∀ m, n ≤ m → ∀ k' < k, ∀ i', ¬ waits k' i' (e.state m)) :
    ∀ m, n ≤ m → waits k i (e.state m) ∧ ¬ e.Takes (act i) m := by
  have hstep : ∀ m, n ≤ m → waits k i (e.state m) → M.step (e.state m) (e.events m)
      (e.state (m + 1)) → waits k i (e.state (m + 1)) ∧ ¬ e.Takes (act i) m := by
    intro m hm hwm hs
    rcases h.step _ _ _ _ k i (hI m hm) (hI (m + 1) (by omega)) hwm hs with
      hgoal | ⟨k', hk, i', hw'⟩ | hsame
    · exact absurd hgoal (hQ m hm)
    · exact absurd hw' (hdrop (m + 1) (by omega) k' hk i')
    · exact hsame
  have hstays : ∀ m, n ≤ m → waits k i (e.state m) := by
    intro m hm
    induction m, hm using Nat.le_induction with
    | base => exact hw
    | succ m hm ih =>
      rcases e.next m with hs | ⟨hstate, -⟩
      · exact (hstep m hm ih hs).1
      · rw [hstate]
        exact ih
  refine fun m hm => ⟨hstays m hm, fun htaken => ?_⟩
  exact (hstep m hm (hstays m hm) (h.isStep i _ _ _ htaken)).2 htaken

/-- **The rule of the helpful action**: in an execution that is fair to every action, whoever
waits reaches the goal. -/
theorem Ranking.reached [WellFoundedLT α] (h : Ranking M act I Q waits) (e : Execution M)
    (hfair : ∀ i, e.WeaklyFair (act i)) {n : Nat}
    (hI : ∀ m, n ≤ m → I (e.trace m) (e.state m)) {k : α} {i : ι}
    (hw : waits k i (e.state n)) : ∃ m, n ≤ m ∧ Q (e.events m) (e.state (m + 1)) := by
  induction k using WellFoundedLT.induction generalizing n i with
  | ind k ih =>
    by_contra hnever
    have hQ : ∀ m, n ≤ m → ¬ Q (e.events m) (e.state (m + 1)) :=
      fun m hm hgoal => hnever ⟨m, hm, hgoal⟩
    -- after the rank has dropped the goal is reached
    have hdrop : ∀ m, n ≤ m → ∀ k' < k, ∀ i', ¬ waits k' i' (e.state m) := by
      intro m hm k' hk i' hw'
      obtain ⟨p, hp, hgoal⟩ := ih k' hk (fun q hq => hI q (Nat.le_trans hm hq)) hw'
      exact hQ p (Nat.le_trans hm hp) hgoal
    have hstays := h.waits_on e hI hw hQ hdrop
    obtain ⟨m, hm, htaken⟩ := hfair i n fun m hm =>
      h.enabled _ _ k i (hI m hm) (hstays m hm).1
    exact (hstays m hm).2 htaken

end Rule

/-! ## Executions from finite runs -/

namespace Execution

variable {s s' : σ} {es tr : List ε}

theorem trace_prefix (e : Execution M) {n m : Nat} (h : n ≤ m) : e.trace n <+: e.trace m := by
  induction m, h using Nat.le_induction with
  | base => exact List.prefix_refl _
  | succ m _ ih => exact ih.trans (List.prefix_append ..)

/-- From position `N` on the execution pauses in `s`. -/
def EndsAt (e : Execution M) (N : Nat) (s : σ) : Prop :=
  ∀ m, N ≤ m → e.state m = s ∧ e.events m = []

theorem EndsAt.trace_prefix {e : Execution M} {N : Nat} (h : e.EndsAt N s) (m : Nat) :
    e.trace m <+: e.trace N := by
  by_cases hm : m ≤ N
  · exact e.trace_prefix hm
  · induction m, Nat.le_of_not_le hm using Nat.le_induction with
    | base => exact List.prefix_refl _
    | succ m hN ih =>
      show e.trace m ++ e.events m <+: _
      rw [(h m hN).2, List.append_nil]
      by_cases hm' : m ≤ N
      · exact e.trace_prefix hm'
      · exact ih hm'

/-- An action that is not enabled in the end is treated fairly. -/
theorem EndsAt.weaklyFair {e : Execution M} {N : Nat} (h : e.EndsAt N s) {A : Action σ ε}
    (hA : ¬ Enabled A s) : e.WeaklyFair A := by
  intro n hen
  have hmax := hen (max n N) (Nat.le_max_left ..)
  rw [(h _ (Nat.le_max_right ..)).1] at hmax
  exact absurd hmax hA

/-- The execution that pauses in an initial state. -/
def rest (h : M.init s) : Execution M where
  state _ := s
  events _ := []
  start := h
  next _ := .inr ⟨rfl, rfl⟩

/-- One more step, instead of the pause. -/
def snoc (e : Execution M) {N : Nat} (h : e.EndsAt N s) (hs : M.step s es s') : Execution M where
  state m := if m ≤ N then e.state m else s'
  events m := if m = N then es else e.events m
  start := by
    rw [if_pos (Nat.zero_le N)]
    exact e.start
  next m := by
    rcases Nat.lt_trichotomy m N with hm | rfl | hm
    · rw [if_pos (Nat.le_of_lt hm), if_pos (Nat.succ_le_of_lt hm), if_neg (Nat.ne_of_lt hm)]
      exact e.next m
    · rw [if_pos (Nat.le_refl m), if_neg (Nat.not_succ_le_self m), if_pos rfl,
        (h m (Nat.le_refl m)).1]
      exact .inl hs
    · have hnext : ¬ m + 1 ≤ N := by omega
      rw [if_neg (Nat.not_le_of_lt hm), if_neg (Nat.ne_of_gt hm), if_neg hnext,
        (h m (Nat.le_of_lt hm)).2]
      exact .inr ⟨rfl, rfl⟩

variable (e : Execution M) {N : Nat} (h : e.EndsAt N s) (hs : M.step s es s')

theorem snoc_endsAt : (e.snoc h hs).EndsAt (N + 1) s' := by
  intro m hm
  show (if m ≤ N then e.state m else s') = s' ∧ (if m = N then es else e.events m) = []
  rw [if_neg (by omega), if_neg (by omega)]
  exact ⟨rfl, (h m (by omega)).2⟩

theorem snoc_state {m : Nat} (hm : m ≤ N) : (e.snoc h hs).state m = e.state m := if_pos hm

theorem snoc_trace {m : Nat} (hm : m ≤ N) : (e.snoc h hs).trace m = e.trace m := by
  induction m with
  | zero => rfl
  | succ m ih =>
    have hev : (e.snoc h hs).events m = e.events m := if_neg (by omega)
    show (e.snoc h hs).trace m ++ (e.snoc h hs).events m = e.trace m ++ e.events m
    rw [ih (by omega), hev]

theorem snoc_trace_end : (e.snoc h hs).trace (N + 1) = e.trace N ++ es := by
  have hev : (e.snoc h hs).events N = es := if_pos rfl
  show (e.snoc h hs).trace N ++ (e.snoc h hs).events N = _
  rw [snoc_trace e h hs (Nat.le_refl N), hev]

/-! ### Going on forever -/

section Forever

variable {P : σ → Prop} {A : Nat → Action σ ε}
  (hnext : ∀ k s, P s → ∃ es s', A k s es s' ∧ P s')

/-- From a state in `P`, by the actions `A 0`, `A 1` and so on. -/
noncomputable def along (s : { s // P s }) : Nat → { s // P s }
  | 0 => s
  | k + 1 =>
    let p := along s k
    ⟨(hnext k p.1 p.2).choose_spec.choose, (hnext k p.1 p.2).choose_spec.choose_spec.2⟩

theorem along_step (s : { s // P s }) (k : Nat) :
    ∃ es, A k (along hnext s k).1 es (along hnext s (k + 1)).1 :=
  ⟨_, (hnext k (along hnext s k).1 (along hnext s k).2).choose_spec.choose_spec.1⟩

include hnext in
/-- Instead of pausing, an execution can go on with other steps. -/
theorem EndsAt.forever {e : Execution M} {N : Nat} (h : e.EndsAt N s) (hs : P s)
    (hstep : ∀ k s es s', A k s es s' → M.step s es s') :
    ∃ e' : Execution M, (∀ n ≤ N, e'.state n = e.state n ∧ e'.trace n = e.trace n) ∧
      (∀ n < N, e'.events n = e.events n) ∧
      ∀ k, P (e'.state (N + k)) ∧ e'.Takes (A k) (N + k) := by
  choose events hevents using along_step hnext ⟨s, hs⟩
  let state : Nat → σ := fun m => if m < N then e.state m else (along hnext ⟨s, hs⟩ (m - N)).1
  have hbefore : ∀ m, m ≤ N → state m = e.state m := by
    intro m hm
    rcases Nat.lt_or_eq_of_le hm with hlt | rfl
    · exact if_pos hlt
    · show (if m < m then _ else _) = _
      rw [if_neg (Nat.lt_irrefl m), Nat.sub_self, (h m (Nat.le_refl m)).1]
      rfl
  have hafter : ∀ k, state (N + k) = (along hnext ⟨s, hs⟩ k).1 := by
    intro k
    show (if N + k < N then _ else (along hnext ⟨s, hs⟩ (N + k - N)).1) = _
    rw [if_neg (by omega), Nat.add_sub_cancel_left]
  let e' : Execution M :=
    { state, events := fun m => if m < N then e.events m else events (m - N)
      start := by
        rw [hbefore 0 (Nat.zero_le N)]
        exact e.start
      next := fun m => by
        by_cases hm : m < N
        · rw [hbefore m (Nat.le_of_lt hm), hbefore (m + 1) hm, if_pos hm]
          exact e.next m
        · obtain ⟨k, rfl⟩ := Nat.exists_eq_add_of_le (Nat.le_of_not_lt hm)
          rw [if_neg hm, Nat.add_sub_cancel_left, hafter, Nat.add_assoc, hafter]
          exact .inl (hstep _ _ _ _ (hevents k)) }
  have hsame : ∀ m, m < N → e'.events m = e.events m := fun m hm => if_pos hm
  have htrace : ∀ n ≤ N, e'.trace n = e.trace n := by
    intro n hn
    induction n with
    | zero => rfl
    | succ n ih =>
      show e'.trace n ++ e'.events n = _
      rw [ih (by omega), hsame n hn]
      rfl
  refine ⟨e', fun n hn => ⟨hbefore n hn, htrace n hn⟩, hsame, fun k => ?_⟩
  have hev : e'.events (N + k) = events k := by
    show (if N + k < N then _ else events (N + k - N)) = _
    rw [if_neg (by omega), Nat.add_sub_cancel_left]
  rw [Execution.Takes, hev]
  show P (state (N + k)) ∧ A k (state (N + k)) (events k) (state (N + (k + 1)))
  rw [hafter, hafter]
  exact ⟨(along hnext ⟨s, hs⟩ k).2, hevents k⟩

end Forever

/-- A step, and then an execution. -/
def cons {s₀ s₁ : σ} (h : M.init s₀) (hs : M.step s₀ es s₁) (e : Execution (M.after s₁)) :
    Execution M where
  state
    | 0 => s₀
    | n + 1 => e.state n
  events
    | 0 => es
    | n + 1 => e.events n
  start := h
  next
    | 0 => .inl (by
        show M.step s₀ es (e.state 0)
        rw [show e.state 0 = s₁ from e.start]
        exact hs)
    | n + 1 => e.next n

end Execution

/-- A run is the beginning of an execution that pauses where the run ends. -/
theorem ReachUnder.execution {C : Guard σ ε} {tr : List ε} {s : σ} (hr : ReachUnder M C tr s) :
    ∃ (e : Execution M) (N : Nat), e.EndsAt N s ∧ e.trace N = tr ∧
      ∀ n < N, C (e.trace n) (e.state n) (e.events n) := by
  refine ReachUnder.invariant (I := fun tr s => ∃ (e : Execution M) (N : Nat),
    e.EndsAt N s ∧ e.trace N = tr ∧ ∀ n < N, C (e.trace n) (e.state n) (e.events n)) ?_ ?_ hr
  · intro s hs
    exact ⟨Execution.rest hs, 0, fun _ _ => ⟨rfl, rfl⟩, rfl, fun n hn => by omega⟩
  · rintro tr es s s' - ⟨e, N, h, rfl, hC⟩ hs hguard
    refine ⟨e.snoc h hs, N + 1, e.snoc_endsAt h hs, e.snoc_trace_end h hs, fun n hn => ?_⟩
    have hle : n ≤ N := Nat.le_of_lt_succ hn
    rw [e.snoc_trace h hs hle, e.snoc_state h hs hle]
    rcases Nat.lt_or_eq_of_le hle with hlt | rfl
    · rw [show (e.snoc h hs).events n = e.events n from if_neg (Nat.ne_of_lt hlt)]
      exact hC n hlt
    · rw [show (e.snoc h hs).events n = es from if_pos rfl, (h n (Nat.le_refl n)).1]
      exact hguard

/-- The same of a run that goes on from `s`. -/
theorem Reach.execution_through {tr es : List ε} {s s' : σ} (hr : Reach M tr s)
    (hr' : Reach (M.after s) es s') :
    ∃ (e : Execution M) (n N : Nat), n ≤ N ∧ e.trace n = tr ∧ e.state n = s ∧
      e.EndsAt N s' ∧ e.trace N = tr ++ es := by
  refine Reach.invariant (M := M.after s) (I := fun es s' => ∃ (e : Execution M) (n N : Nat),
    n ≤ N ∧ e.trace n = tr ∧ e.state n = s ∧ e.EndsAt N s' ∧ e.trace N = tr ++ es) ?_ ?_ hr'
  · rintro _ rfl
    obtain ⟨e, N, h, htr, -⟩ := ReachUnder.execution hr
    exact ⟨e, N, N, Nat.le_refl N, htr, (h N (Nat.le_refl N)).1, h, by rw [htr, List.append_nil]⟩
  · rintro es es' s₁ s₂ _ ⟨e, n, N, hn, htr, hstate, h, hend⟩ hs
    have hs' : M.step s₁ es' s₂ := hs
    refine ⟨e.snoc h hs', n, N + 1, by omega, ?_, ?_, e.snoc_endsAt h hs', ?_⟩
    · rw [e.snoc_trace h hs' hn, htr]
    · rw [e.snoc_state h hs' hn, hstate]
    · rw [e.snoc_trace_end h hs', hend, List.append_assoc]

end Lts
