import Mathlib.Logic.Function.Basic
import Tagaspi.Lib.Lts

/-!
# Jobs with a quota

An abstract account of work that is collected item by item. A job `w` asks for
`quota w` items out of those it `takes`; while it is open it sits in one carrier
(a stack frame, a heap object), together with the number of items it still
misses, and may be moved to another carrier at any time.

`Ledger` is the specification: jobs are opened under fresh keys, items are
credited one at a time to the job that took them, and a job is closed when it
misses nothing. `Accounts` is what follows for every run (`accounts_reach`): an
open job has received exactly what it no longer misses, no job is open twice, and
a job is closed once, after exactly `quota w` credits, and receives nothing after
that.
-/

namespace Lts

universe u v w

variable {K : Type u} {W : Type v} {I : Type w}

/-- A kind of jobs: their identities, how many items each asks for and which. -/
structure Jobs (W : Type v) (I : Type w) where
  key : W → Nat
  quota : W → Nat
  takes : W → I → Prop

/-- The open jobs by carrier, each with the number of items it misses. -/
structure Ledger (K : Type u) (W : Type v) where
  live : K → Option (W × Nat)
  /-- The first key not used yet. -/
  next : Nat

inductive Ledger.Event (W : Type v) (I : Type w) where
  | start (w : W)
  /-- Item `i` is credited to `w`. -/
  | credit (w : W) (i : I)
  /-- `w` reached for item `i` and found it gone. -/
  | miss (w : W) (i : I)
  | finish (w : W)

namespace Ledger

/-- The job an event is about. -/
def Event.job : Event W I → W
  | .start w => w
  | .credit w _ => w
  | .miss w _ => w
  | .finish w => w

section Semantics

variable [DecidableEq K]

/-- The steps of the specification. -/
inductive Step (J : Jobs W I) : Ledger K W → List (Event W I) → Ledger K W → Prop where
  | start {b : Ledger K W} {k : K} {w : W} :
      b.live k = none → J.key w = b.next →
      Step J b [.start w] ⟨Function.update b.live k (some (w, J.quota w)), b.next + 1⟩
  | credit {b : Ledger K W} {k : K} {w : W} {r : Nat} {i : I} :
      b.live k = some (w, r + 1) → J.takes w i →
      Step J b [.credit w i] { b with live := Function.update b.live k (some (w, r)) }
  | miss {b : Ledger K W} {k : K} {w : W} {r : Nat} {i : I} :
      b.live k = some (w, r + 1) → J.takes w i → Step J b [.miss w i] b
  | move {b : Ledger K W} {k k' : K} {p : W × Nat} :
      b.live k = some p → b.live k' = none →
      Step J b []
        { b with live := Function.update (Function.update b.live k none) k' (some p) }
  | finish {b : Ledger K W} {k : K} {w : W} :
      b.live k = some (w, 0) →
      Step J b [.finish w] { b with live := Function.update b.live k none }

/-- The specification: no job is open at first. -/
def spec (K : Type u) [DecidableEq K] (J : Jobs W I) : System (Ledger K W) (Event W I) where
  init b := ∀ k, b.live k = none
  step := Step J

end Semantics

/-! ## What a trace says about a job -/

section Trace

variable [DecidableEq W]

/-- The item an event credits to `w`. -/
def Event.creditedTo (w : W) : Event W I → Option I
  | .credit w' i => if w' = w then some i else none
  | _ => none

/-- The items credited to `w`, in order. -/
def items (w : W) (tr : List (Event W I)) : List I := tr.filterMap (Event.creditedTo w)

theorem items_append (w : W) (tr es : List (Event W I)) :
    items w (tr ++ es) = items w tr ++ items w es :=
  List.filterMap_append ..

theorem items_snoc_of_none {w : W} {e : Event W I} (tr : List (Event W I))
    (h : e.creditedTo w = none) : items w (tr ++ [e]) = items w tr := by
  rw [items_append]
  simp [items, h]

theorem items_credit_self (w : W) (i : I) (tr : List (Event W I)) :
    items w (tr ++ [.credit w i]) = items w tr ++ [i] := by
  rw [items_append]
  simp [items, Event.creditedTo]

theorem items_credit_of_ne {w w' : W} (h : w' ≠ w) (i : I) (tr : List (Event W I)) :
    items w (tr ++ [.credit w' i]) = items w tr :=
  items_snoc_of_none tr (if_neg h)

theorem mem_items {w : W} {i : I} {tr : List (Event W I)} :
    i ∈ items w tr ↔ Event.credit w i ∈ tr := by
  unfold items
  rw [List.mem_filterMap]
  refine ⟨?_, fun h => ⟨_, h, by simp [Event.creditedTo]⟩⟩
  rintro ⟨e, he, hi⟩
  cases e with
  | credit w' j =>
    by_cases hw : w' = w
    · subst hw
      simp only [Event.creditedTo, if_true, Option.some.injEq] at hi
      rwa [hi] at he
    · simp [Event.creditedTo, hw] at hi
  | _ => simp [Event.creditedTo] at hi

/-- A job is opened once; it collects only while it is open and short of its
quota; and it is closed once, with its quota met. -/
def InOrder (J : Jobs W I) (pre : List (Event W I)) : Event W I → Prop
  | .start w => Event.start w ∉ pre
  | .credit w i => Event.start w ∈ pre ∧ Event.finish w ∉ pre ∧ J.takes w i ∧
      (items w pre).length < J.quota w
  | .miss w i => Event.start w ∈ pre ∧ Event.finish w ∉ pre ∧ J.takes w i ∧
      (items w pre).length < J.quota w
  | .finish w => Event.start w ∈ pre ∧ Event.finish w ∉ pre ∧ (items w pre).length = J.quota w

/-- **The books are balanced.** -/
structure Accounts (J : Jobs W I) (tr : List (Event W I)) (b : Ledger K W) : Prop where
  fresh : ∀ w, Event.start w ∈ tr → J.key w < b.next
  opened : ∀ e ∈ tr, Event.start e.job ∈ tr
  balance : ∀ k w r, b.live k = some (w, r) →
    Event.start w ∈ tr ∧ Event.finish w ∉ tr ∧ (items w tr).length + r = J.quota w
  unique : ∀ k k' w w' r r', b.live k = some (w, r) → b.live k' = some (w', r') →
    J.key w = J.key w' → k = k'
  settled : ∀ w, Event.start w ∈ tr →
    (∃ k r, b.live k = some (w, r)) ∨
      (Event.finish w ∈ tr ∧ (items w tr).length = J.quota w)
  inOrder : Causal (InOrder J) tr

variable {J : Jobs W I}

theorem accounts_init {b : Ledger K W} (h : ∀ k, b.live k = none) : Accounts J [] b where
  fresh _ hw := by cases hw
  opened _ he := by cases he
  balance k w r hk := by rw [h k] at hk; cases hk
  unique k k' w w' r r' hk := by rw [h k] at hk; cases hk
  settled _ hw := by cases hw
  inOrder := Causal.nil

/-- A job that was never opened has no history. -/
theorem Accounts.no_history {tr : List (Event W I)} {b : Ledger K W} (h : Accounts J tr b) {w : W}
    (hw : b.next ≤ J.key w) {e : Event W I} (he : e.job = w) : e ∉ tr := by
  intro hmem
  have := h.fresh w (he ▸ h.opened e hmem)
  omega

/-- An event of a job that has been opened opens no other. -/
theorem Accounts.opened_snoc {tr : List (Event W I)} {b : Ledger K W} (h : Accounts J tr b)
    {e : Event W I} (hstart : Event.start e.job ∈ tr) :
    ∀ e' ∈ tr ++ [e], Event.start e'.job ∈ tr ++ [e] := by
  intro e' he'
  rcases List.mem_append.mp he' with he' | he'
  · exact List.mem_append_left _ (h.opened e' he')
  · obtain rfl := List.mem_singleton.mp he'
    exact List.mem_append_left _ hstart

variable [DecidableEq K]

theorem accounts_start {tr : List (Event W I)} {b : Ledger K W} (h : Accounts J tr b) {k : K}
    {w : W} (hk : b.live k = none) (hw : J.key w = b.next) :
    Accounts J (tr ++ [.start w])
      ⟨Function.update b.live k (some (w, J.quota w)), b.next + 1⟩ := by
  have hnew : ∀ {e : Event W I}, e.job = w → e ∉ tr := fun he =>
    h.no_history (Nat.le_of_eq hw.symm) he
  have hitems : ∀ w', items w' (tr ++ [.start w]) = items w' tr :=
    fun w' => items_snoc_of_none tr rfl
  have hempty : items w tr = [] :=
    List.eq_nil_iff_forall_not_mem.mpr fun i hi => hnew rfl (mem_items.mp hi)
  -- an older open job has an older key
  have hold : ∀ {k' w' r'}, b.live k' = some (w', r') → J.key w' ≠ J.key w := by
    intro k' w' r' hk' heq
    have := h.fresh w' (h.balance k' w' r' hk').1
    omega
  refine ⟨?_, ?_, ?_, ?_, ?_, h.inOrder.snoc (hnew rfl)⟩
  · intro w' hw'
    rcases List.mem_append.mp hw' with hw' | hw'
    · exact Nat.lt_succ_of_lt (h.fresh w' hw')
    · obtain rfl : w' = w := by simpa using hw'
      exact hw ▸ Nat.lt_succ_self _
  · intro e he
    rcases List.mem_append.mp he with he | he
    · exact List.mem_append_left _ (h.opened e he)
    · obtain rfl : e = .start w := by simpa using he
      exact List.mem_append_right _ (List.mem_singleton.mpr rfl)
  · intro k' w' r' hk'
    rw [hitems]
    by_cases hkk : k' = k
    · subst hkk
      simp only [Function.update_self, Option.some.injEq, Prod.mk.injEq] at hk'
      obtain ⟨rfl, rfl⟩ := hk'
      refine ⟨by simp, ?_, by rw [hempty]; simp⟩
      rw [List.mem_append, List.mem_singleton, not_or]
      exact ⟨hnew rfl, by simp⟩
    · have hk'' : b.live k' = some (w', r') := by simpa [hkk] using hk'
      obtain ⟨h₁, h₂, h₃⟩ := h.balance k' w' r' hk''
      refine ⟨List.mem_append_left _ h₁, ?_, h₃⟩
      rw [List.mem_append, List.mem_singleton, not_or]
      exact ⟨h₂, by simp⟩
  · intro k₁ k₂ w₁ w₂ r₁ r₂ h₁ h₂ heq
    by_cases hk₁ : k₁ = k <;> by_cases hk₂ : k₂ = k
    · rw [hk₁, hk₂]
    · have h₂' : b.live k₂ = some (w₂, r₂) := by simpa [hk₂] using h₂
      have hw₁ : w = w₁ := by
        subst hk₁
        simp only [Function.update_self, Option.some.injEq, Prod.mk.injEq] at h₁
        exact h₁.1
      exact absurd (heq.symm.trans (hw₁ ▸ rfl)) (hold h₂')
    · have h₁' : b.live k₁ = some (w₁, r₁) := by simpa [hk₁] using h₁
      have hw₂ : w = w₂ := by
        subst hk₂
        simp only [Function.update_self, Option.some.injEq, Prod.mk.injEq] at h₂
        exact h₂.1
      exact absurd (heq.trans (hw₂ ▸ rfl)) (hold h₁')
    · exact h.unique k₁ k₂ w₁ w₂ r₁ r₂ (by simpa [hk₁] using h₁) (by simpa [hk₂] using h₂) heq
  · intro w' hw'
    rw [hitems]
    rcases List.mem_append.mp hw' with hw' | hw'
    · rcases h.settled w' hw' with ⟨k', r', hk'⟩ | ⟨hfin, hlen⟩
      · refine Or.inl ⟨k', r', ?_⟩
        have hkk : k' ≠ k := by
          rintro rfl
          rw [hk] at hk'
          cases hk'
        simpa [hkk] using hk'
      · exact Or.inr ⟨List.mem_append_left _ hfin, hlen⟩
    · obtain rfl : w' = w := by simpa using hw'
      exact Or.inl ⟨k, J.quota w', by simp⟩

omit [DecidableEq K] in
/-- Two open jobs are the same only in the same carrier. -/
theorem Accounts.job_ne {tr : List (Event W I)} {b : Ledger K W} (h : Accounts J tr b) {k k' : K}
    {w w' : W} {r r' : Nat} (hk : b.live k = some (w, r)) (hk' : b.live k' = some (w', r'))
    (hkk : k' ≠ k) : w' ≠ w := by
  rintro rfl
  exact hkk (h.unique k' k w' w' r' r hk' hk rfl)

theorem accounts_credit {tr : List (Event W I)} {b : Ledger K W} (h : Accounts J tr b) {k : K}
    {w : W} {r : Nat} {i : I} (hk : b.live k = some (w, r + 1)) (hi : J.takes w i) :
    Accounts J (tr ++ [.credit w i])
      { b with live := Function.update b.live k (some (w, r)) } := by
  obtain ⟨hstart, hopen, hbal⟩ := h.balance k w (r + 1) hk
  -- the jobs in their carriers are the same as before
  have hjob : ∀ {k' w' r'}, Function.update b.live k (some (w, r)) k' = some (w', r') →
      ∃ r'', b.live k' = some (w', r'') := by
    intro k' w' r' hk'
    by_cases hkk : k' = k
    · subst hkk
      simp only [Function.update_self, Option.some.injEq, Prod.mk.injEq] at hk'
      exact ⟨r + 1, hk'.1 ▸ hk⟩
    · exact ⟨r', by simpa [hkk] using hk'⟩
  refine ⟨?_, h.opened_snoc hstart, ?_, ?_, ?_, h.inOrder.snoc ⟨hstart, hopen, hi, by omega⟩⟩
  · intro w' hw'
    exact h.fresh w' (by simpa using hw')
  · intro k' w' r' hk'
    by_cases hkk : k' = k
    · subst hkk
      simp only [Function.update_self, Option.some.injEq, Prod.mk.injEq] at hk'
      obtain ⟨rfl, rfl⟩ := hk'
      refine ⟨List.mem_append_left _ hstart, by simpa using hopen, ?_⟩
      rw [items_credit_self, List.length_append, List.length_singleton]
      omega
    · have hk'' : b.live k' = some (w', r') := by simpa [hkk] using hk'
      obtain ⟨h₁, h₂, h₃⟩ := h.balance k' w' r' hk''
      refine ⟨List.mem_append_left _ h₁, by simpa using h₂, ?_⟩
      rw [items_credit_of_ne (h.job_ne hk hk'' hkk).symm]
      exact h₃
  · intro k₁ k₂ w₁ w₂ r₁ r₂ h₁ h₂ heq
    obtain ⟨r₁', h₁'⟩ := hjob h₁
    obtain ⟨r₂', h₂'⟩ := hjob h₂
    exact h.unique k₁ k₂ w₁ w₂ r₁' r₂' h₁' h₂' heq
  · intro w' hw'
    rcases h.settled w' (by simpa using hw') with ⟨k', r', hk'⟩ | ⟨hfin, hlen⟩
    · by_cases hkk : k' = k
      · subst hkk
        obtain ⟨rfl, -⟩ := Prod.mk.inj (Option.some.inj (hk.symm.trans hk'))
        exact Or.inl ⟨k', r, by simp⟩
      · exact Or.inl ⟨k', r', by simpa [hkk] using hk'⟩
    · have hne : w ≠ w' := by
        rintro rfl
        exact hopen hfin
      exact Or.inr ⟨List.mem_append_left _ hfin, by rw [items_credit_of_ne hne]; exact hlen⟩

omit [DecidableEq K] in
theorem accounts_miss {tr : List (Event W I)} {b : Ledger K W} (h : Accounts J tr b) {k : K}
    {w : W} {r : Nat} {i : I} (hk : b.live k = some (w, r + 1)) (hi : J.takes w i) :
    Accounts J (tr ++ [.miss w i]) b := by
  obtain ⟨hstart, hopen, hbal⟩ := h.balance k w (r + 1) hk
  have hitems : ∀ w', items w' (tr ++ [.miss w i]) = items w' tr :=
    fun w' => items_snoc_of_none tr rfl
  refine ⟨?_, h.opened_snoc hstart, ?_, h.unique, ?_,
    h.inOrder.snoc ⟨hstart, hopen, hi, by omega⟩⟩
  · intro w' hw'
    exact h.fresh w' (by simpa using hw')
  · intro k' w' r' hk'
    rw [hitems]
    obtain ⟨h₁, h₂, h₃⟩ := h.balance k' w' r' hk'
    exact ⟨List.mem_append_left _ h₁, by simpa using h₂, h₃⟩
  · intro w' hw'
    rw [hitems]
    rcases h.settled w' (by simpa using hw') with hlive | ⟨hfin, hlen⟩
    · exact Or.inl hlive
    · exact Or.inr ⟨List.mem_append_left _ hfin, hlen⟩

theorem accounts_move {tr : List (Event W I)} {b : Ledger K W} (h : Accounts J tr b) {k k' : K}
    {p : W × Nat} (hk : b.live k = some p) (hk' : b.live k' = none) :
    Accounts J tr
      { b with live := Function.update (Function.update b.live k none) k' (some p) } := by
  -- where the contents of a carrier were before the move
  have hback : ∀ {c q}, Function.update (Function.update b.live k none) k' (some p) c = some q →
      (c = k' ∧ q = p) ∨ (c ≠ k' ∧ c ≠ k ∧ b.live c = some q) := by
    intro c q hc
    by_cases hck' : c = k'
    · subst hck'
      exact Or.inl ⟨rfl, by simpa using hc.symm⟩
    · by_cases hck : c = k
      · subst hck
        simp [hck'] at hc
      · exact Or.inr ⟨hck', hck, by simpa [hck', hck] using hc⟩
  refine ⟨h.fresh, h.opened, ?_, ?_, ?_, h.inOrder⟩
  · intro c w r hc
    rcases hback hc with ⟨-, rfl⟩ | ⟨-, -, hc⟩
    · exact h.balance k w r hk
    · exact h.balance c w r hc
  · intro c₁ c₂ w₁ w₂ r₁ r₂ h₁ h₂ heq
    rcases hback h₁ with ⟨rfl, rfl⟩ | ⟨-, hk₁, h₁'⟩
    · rcases hback h₂ with ⟨rfl, -⟩ | ⟨-, hk₂, h₂'⟩
      · rfl
      · exact absurd (h.unique k c₂ w₁ w₂ r₁ r₂ hk h₂' heq) (Ne.symm hk₂)
    · rcases hback h₂ with ⟨rfl, rfl⟩ | ⟨-, -, h₂'⟩
      · exact absurd (h.unique c₁ k w₁ w₂ r₁ r₂ h₁' hk heq) hk₁
      · exact h.unique c₁ c₂ w₁ w₂ r₁ r₂ h₁' h₂' heq
  · intro w hw
    rcases h.settled w hw with ⟨c, r, hc⟩ | hfin
    · left
      by_cases hck : c = k
      · subst hck
        exact ⟨k', r, by rw [hc] at hk; simpa using hk.symm⟩
      · have hck' : c ≠ k' := by
          rintro rfl
          rw [hk'] at hc
          cases hc
        exact ⟨c, r, by simpa [hck, hck'] using hc⟩
    · exact Or.inr hfin

theorem accounts_finish {tr : List (Event W I)} {b : Ledger K W} (h : Accounts J tr b) {k : K}
    {w : W} (hk : b.live k = some (w, 0)) :
    Accounts J (tr ++ [.finish w]) { b with live := Function.update b.live k none } := by
  obtain ⟨hstart, hopen, hbal⟩ := h.balance k w 0 hk
  have hitems : ∀ w', items w' (tr ++ [.finish w]) = items w' tr :=
    fun w' => items_snoc_of_none tr rfl
  have hback : ∀ {c q}, Function.update b.live k none c = some q → c ≠ k ∧ b.live c = some q := by
    intro c q hc
    have hck : c ≠ k := by
      rintro rfl
      simp at hc
    exact ⟨hck, by simpa [hck] using hc⟩
  refine ⟨?_, h.opened_snoc hstart, ?_, ?_, ?_, h.inOrder.snoc ⟨hstart, hopen, hbal⟩⟩
  · intro w' hw'
    exact h.fresh w' (by simpa using hw')
  · intro c w' r hc
    rw [hitems]
    obtain ⟨hck, hc⟩ := hback hc
    obtain ⟨h₁, h₂, h₃⟩ := h.balance c w' r hc
    refine ⟨List.mem_append_left _ h₁, ?_, h₃⟩
    rw [List.mem_append, List.mem_singleton, not_or]
    exact ⟨h₂, by simpa using h.job_ne hk hc hck⟩
  · intro c₁ c₂ w₁ w₂ r₁ r₂ h₁ h₂ heq
    exact h.unique c₁ c₂ w₁ w₂ r₁ r₂ (hback h₁).2 (hback h₂).2 heq
  · intro w' hw'
    rw [hitems]
    rcases h.settled w' (by simpa using hw') with ⟨c, r, hc⟩ | ⟨hfin, hlen⟩
    · by_cases hck : c = k
      · subst hck
        obtain ⟨rfl, rfl⟩ := Prod.mk.inj (Option.some.inj (hk.symm.trans hc))
        exact Or.inr ⟨by simp, hbal⟩
      · exact Or.inl ⟨c, r, by simpa [hck] using hc⟩
    · exact Or.inr ⟨List.mem_append_left _ hfin, hlen⟩

/-- **The books are balanced after every run.** -/
theorem accounts_reach {tr : List (Event W I)} {b : Ledger K W} (h : Reach (spec K J) tr b) :
    Accounts J tr b := by
  refine Reach.invariant (I := fun tr b => Accounts J tr b) (fun _ hi => accounts_init hi) ?_ h
  intro tr es b b' _ ha hs
  cases hs with
  | start hk hw => exact accounts_start ha hk hw
  | credit hk hi => exact accounts_credit ha hk hi
  | miss hk hi => exact accounts_miss ha hk hi
  | move hk hk' =>
    rw [List.append_nil]
    exact accounts_move ha hk hk'
  | finish hk => exact accounts_finish ha hk

end Trace

end Ledger

end Lts
