import Mathlib.Tactic.Common

/-!
# Counted and uncounted loops that can fail

Straight-line imperative code over `Except Fault`: a computation that divides by
zero, leaves the bounds of an array or aborts stops with a `Fault`.

- `forRange lo hi body`: the counted loop `for (i = lo; i < hi; ++i)`, with its
  rules for total correctness (`forRange_total`), for partial correctness (`forRange_ok`)
  and for failure (`forRange_fault`).
- `whileLoop cond body fuel`: the loop `while (cond)`, cut off after `fuel` rounds.
  The loop terminates if some fuel is enough (`whileLoop_total`) and diverges if
  every fuel runs out (`whileLoop_diverges`); `whileLoop_safe` says what any amount of
  fuel can lead to, and `whileLoop_ok` what holds if it was enough.
-/

namespace Loops

universe u

/-- What stops a computation. -/
inductive Fault where
  | divideByZero
  | outOfBounds
  /-- The program gives up. -/
  | aborted
  /-- The loop bound of the model was too small; no behaviour of the program. -/
  | outOfFuel
deriving DecidableEq, Repr

variable {σ : Type u}

/-- `a / b`. -/
def divide (a b : Nat) : Except Fault Nat := if b = 0 then .error .divideByZero else .ok (a / b)

/-- `a % b`. -/
def modulo (a b : Nat) : Except Fault Nat := if b = 0 then .error .divideByZero else .ok (a % b)

/-- `a[i]` on a vector. -/
def fetch {α : Type u} (l : List α) (i : Nat) : Except Fault α :=
  match l[i]? with
  | some a => .ok a
  | none => .error .outOfBounds

theorem divide_ok {b : Nat} (h : b ≠ 0) (a : Nat) : divide a b = .ok (a / b) := if_neg h

theorem modulo_ok {b : Nat} (h : b ≠ 0) (a : Nat) : modulo a b = .ok (a % b) := if_neg h

theorem fetch_ok {α : Type u} {l : List α} {i : Nat} {a : α} (h : l[i]? = some a) :
    fetch l i = .ok a := by
  unfold fetch
  rw [h]

theorem fetch_eq_ok {α : Type u} {l : List α} {i : Nat} {a : α} (h : fetch l i = .ok a) :
    l[i]? = some a := by
  unfold fetch at h
  cases hl : l[i]? with
  | none =>
    rw [hl] at h
    cases h
  | some b =>
    rw [hl] at h
    cases h
    rfl

@[simp] theorem ok_bind {α β : Type u} (a : α) (f : α → Except Fault β) :
    ((.ok a : Except Fault α) >>= f) = f a := rfl

@[simp] theorem error_bind {α β : Type u} (e : Fault) (f : α → Except Fault β) :
    ((.error e : Except Fault α) >>= f) = .error e := rfl

/-- What a successful sequence of two computations did. -/
theorem bind_eq_ok {α β : Type u} {x : Except Fault α} {f : α → Except Fault β} {b : β}
    (h : x >>= f = .ok b) : ∃ a, x = .ok a ∧ f a = .ok b := by
  cases x with
  | error e => cases h
  | ok a => exact ⟨a, rfl, h⟩

/-! ## Counted loops -/

/-- `n` rounds of `body`, the first one at `i`. -/
def rounds (body : Nat → σ → Except Fault σ) : Nat → Nat → σ → Except Fault σ
  | 0, _, s => .ok s
  | n + 1, i, s => body i s >>= rounds body n (i + 1)

/-- `for (i = lo; i < hi; ++i) body`. -/
def forRange (lo hi : Nat) (body : Nat → σ → Except Fault σ) (s : σ) : Except Fault σ :=
  rounds body (hi - lo) lo s

section Counted

variable {body : Nat → σ → Except Fault σ} {I : Nat → σ → Prop} {lo hi : Nat} {s : σ}

theorem rounds_total (n : Nat) :
    ∀ (i : Nat) (s : σ), I i s →
      (∀ j s, i ≤ j → j < i + n → I j s → ∃ s', body j s = .ok s' ∧ I (j + 1) s') →
      ∃ s', rounds body n i s = .ok s' ∧ I (i + n) s' := by
  induction n with
  | zero =>
    intro i s hI _
    exact ⟨s, rfl, hI⟩
  | succ n ih =>
    intro i s hI hstep
    obtain ⟨s₁, hs₁, hI₁⟩ := hstep i s (Nat.le_refl _) (by omega) hI
    obtain ⟨s', hs', hI'⟩ := ih (i + 1) s₁ hI₁ fun j t h₁ h₂ => hstep j t (by omega) (by omega)
    refine ⟨s', ?_, by rwa [Nat.add_right_comm] at hI'⟩
    rw [rounds, hs₁, ok_bind, hs']

/-- **Total correctness.** If every round succeeds and takes the invariant one index
further, the loop succeeds. -/
theorem forRange_total (hle : lo ≤ hi) (hinit : I lo s)
    (hstep : ∀ i s, lo ≤ i → i < hi → I i s → ∃ s', body i s = .ok s' ∧ I (i + 1) s') :
    ∃ s', forRange lo hi body s = .ok s' ∧ I hi s' := by
  obtain ⟨s', hs', hI⟩ := rounds_total (I := I) (hi - lo) lo s hinit
    fun j t h₁ h₂ => hstep j t h₁ (by omega)
  refine ⟨s', hs', ?_⟩
  rwa [Nat.add_sub_cancel' hle] at hI

theorem rounds_fault {e : Fault} (n : Nat) :
    ∀ (i k : Nat) (s : σ), i ≤ k → k < i + n → I i s →
      (∀ j s, i ≤ j → j < k → I j s → ∃ s', body j s = .ok s' ∧ I (j + 1) s') →
      (∀ s, I k s → body k s = .error e) → rounds body n i s = .error e := by
  induction n with
  | zero =>
    intro i k s h₁ h₂
    omega
  | succ n ih =>
    intro i k s h₁ h₂ hI hstep hfail
    by_cases hik : i = k
    · subst hik
      rw [rounds, hfail s hI, error_bind]
    · obtain ⟨s₁, hs₁, hI₁⟩ := hstep i s (Nat.le_refl _) (by omega) hI
      rw [rounds, hs₁, ok_bind]
      exact ih (i + 1) k s₁ (by omega) (by omega) hI₁ (fun j t h₃ h₄ => hstep j t (by omega) h₄)
        hfail

/-- **Failure.** If round `k` fails when it is reached, the loop fails. -/
theorem forRange_fault {e : Fault} {k : Nat} (hlo : lo ≤ k) (hhi : k < hi) (hinit : I lo s)
    (hstep : ∀ i s, lo ≤ i → i < k → I i s → ∃ s', body i s = .ok s' ∧ I (i + 1) s')
    (hfail : ∀ s, I k s → body k s = .error e) : forRange lo hi body s = .error e :=
  rounds_fault (hi - lo) lo k s hlo (by omega) hinit hstep hfail

theorem rounds_ok (n : Nat) :
    ∀ (i : Nat) (s s' : σ), I i s →
      (∀ j t t', i ≤ j → j < i + n → I j t → body j t = .ok t' → I (j + 1) t') →
      rounds body n i s = .ok s' → I (i + n) s' := by
  induction n with
  | zero =>
    intro i s s' hI _ h
    cases h
    exact hI
  | succ n ih =>
    intro i s s' hI hstep h
    obtain ⟨s₁, hs₁, hrest⟩ := bind_eq_ok h
    have := ih (i + 1) s₁ s' (hstep i s s₁ (Nat.le_refl _) (by omega) hI hs₁)
      (fun j t t' h₁ h₂ => hstep j t t' (by omega) (by omega)) hrest
    rwa [Nat.add_right_comm] at this

/-- **Partial correctness.** If the rounds that succeed take the invariant one index further, it
holds after a loop that succeeds. -/
theorem forRange_ok {s' : σ} (hle : lo ≤ hi) (hinit : I lo s)
    (hstep : ∀ i t t', lo ≤ i → i < hi → I i t → body i t = .ok t' → I (i + 1) t')
    (h : forRange lo hi body s = .ok s') : I hi s' := by
  have := rounds_ok (hi - lo) lo s s' hinit
    (fun j t t' h₁ h₂ => hstep j t t' h₁ (by omega)) h
  rwa [Nat.add_sub_cancel' hle] at this

end Counted

/-! ## Uncounted loops -/

/-- `while (cond) body`, cut off after `fuel` rounds. -/
def whileLoop (cond : σ → Bool) (body : σ → Except Fault σ) : Nat → σ → Except Fault σ
  | 0, s => if cond s then .error .outOfFuel else .ok s
  | fuel + 1, s => if cond s then body s >>= whileLoop cond body fuel else .ok s

/-- `do body while (cond)`, cut off after `fuel` more rounds. -/
def doWhile (cond : σ → Bool) (body : σ → Except Fault σ) (fuel : Nat) (s : σ) : Except Fault σ :=
  body s >>= whileLoop cond body fuel

section Uncounted

variable {cond : σ → Bool} {body : σ → Except Fault σ} {I : σ → Prop}

/-- **Termination.** A variant that decreases in every round bounds the fuel. -/
theorem whileLoop_total (V : σ → Nat)
    (hstep : ∀ s, I s → cond s = true → ∃ s', body s = .ok s' ∧ I s' ∧ V s' < V s) :
    ∀ (fuel : Nat) (s : σ), I s → V s ≤ fuel →
      ∃ s', whileLoop cond body fuel s = .ok s' ∧ I s' ∧ cond s' = false := by
  intro fuel
  induction fuel with
  | zero =>
    intro s hI hV
    cases hc : cond s with
    | false => exact ⟨s, by rw [whileLoop, hc]; rfl, hI, hc⟩
    | true =>
      obtain ⟨s', -, -, hlt⟩ := hstep s hI hc
      omega
  | succ fuel ih =>
    intro s hI hV
    cases hc : cond s with
    | false => exact ⟨s, by rw [whileLoop, hc]; rfl, hI, hc⟩
    | true =>
      obtain ⟨s₁, hs₁, hI₁, hlt⟩ := hstep s hI hc
      obtain ⟨s', hs', hI', hc'⟩ := ih s₁ hI₁ (by omega)
      refine ⟨s', ?_, hI', hc'⟩
      rw [whileLoop, hc, if_pos rfl, hs₁, ok_bind, hs']

/-- More fuel does not change the result. -/
theorem whileLoop_mono {k : Nat} :
    ∀ {fuel : Nat} {s s' : σ}, whileLoop cond body fuel s = .ok s' → fuel ≤ k →
      whileLoop cond body k s = .ok s' := by
  induction k with
  | zero =>
    intro fuel s s' h hle
    rwa [Nat.le_zero.mp hle] at h
  | succ k ih =>
    intro fuel s s' h hle
    cases hc : cond s with
    | false =>
      have hdone : ∀ m, whileLoop cond body m s = .ok s := fun m => by
        cases m <;> rw [whileLoop, hc] <;> rfl
      rw [hdone] at h ⊢
      exact h
    | true =>
      cases fuel with
      | zero =>
        rw [whileLoop, hc] at h
        cases h
      | succ fuel =>
        rw [whileLoop, hc, if_pos rfl] at h ⊢
        obtain ⟨s₁, hs₁, hrest⟩ := bind_eq_ok h
        rw [hs₁, ok_bind]
        exact ih hrest (Nat.le_of_succ_le_succ hle)

/-- **Safety.** If every round succeeds, the loop ends in the invariant or is cut off;
nothing else stops it. -/
theorem whileLoop_safe
    (hstep : ∀ s, I s → cond s = true → ∃ s', body s = .ok s' ∧ I s') :
    ∀ (fuel : Nat) (s : σ), I s →
      whileLoop cond body fuel s = .error .outOfFuel ∨
      ∃ s', whileLoop cond body fuel s = .ok s' ∧ I s' ∧ cond s' = false := by
  intro fuel
  induction fuel with
  | zero =>
    intro s hI
    cases hc : cond s with
    | false => exact .inr ⟨s, by rw [whileLoop, hc]; rfl, hI, hc⟩
    | true => exact .inl (by rw [whileLoop, hc]; rfl)
  | succ fuel ih =>
    intro s hI
    cases hc : cond s with
    | false => exact .inr ⟨s, by rw [whileLoop, hc]; rfl, hI, hc⟩
    | true =>
      obtain ⟨s₁, hs₁, hI₁⟩ := hstep s hI hc
      rw [whileLoop, hc, if_pos rfl, hs₁, ok_bind]
      exact ih s₁ hI₁

/-- **Partial correctness.** What the rounds that succeed keep holds after a loop that succeeds,
and the test fails there. -/
theorem whileLoop_ok (hstep : ∀ s s', I s → cond s = true → body s = .ok s' → I s') :
    ∀ {fuel : Nat} {s s' : σ}, I s → whileLoop cond body fuel s = .ok s' →
      I s' ∧ cond s' = false := by
  intro fuel
  induction fuel with
  | zero =>
    intro s s' hI h
    cases hc : cond s with
    | false =>
      rw [whileLoop, hc] at h
      cases h
      exact ⟨hI, hc⟩
    | true =>
      rw [whileLoop, hc] at h
      cases h
  | succ fuel ih =>
    intro s s' hI h
    cases hc : cond s with
    | false =>
      rw [whileLoop, hc] at h
      cases h
      exact ⟨hI, hc⟩
    | true =>
      rw [whileLoop, hc, if_pos rfl] at h
      obtain ⟨s₁, hs₁, hrest⟩ := bind_eq_ok h
      exact ih (hstep s s₁ hI hc hs₁) hrest

/-- **Divergence.** If the test always holds and every round leads back to the
invariant, no amount of fuel is enough. -/
theorem whileLoop_diverges
    (hstep : ∀ s, I s → cond s = true ∧ ∃ s', body s = .ok s' ∧ I s') :
    ∀ (fuel : Nat) (s : σ), I s → whileLoop cond body fuel s = .error .outOfFuel := by
  intro fuel
  induction fuel with
  | zero =>
    intro s hI
    rw [whileLoop, (hstep s hI).1, if_pos rfl]
  | succ fuel ih =>
    intro s hI
    obtain ⟨hc, s₁, hs₁, hI₁⟩ := hstep s hI
    rw [whileLoop, hc, if_pos rfl, hs₁, ok_bind]
    exact ih s₁ hI₁

end Uncounted

end Loops
