import Mathlib.Data.List.Basic
import Mathlib.Data.List.Induction

/-!
# Labelled transition systems, runs and causal traces

The vocabulary in which every concurrent component of this development is
stated.

- `System σ ε`: initial states, and steps that emit a (possibly empty) list of
  observable events. One step is one atomic action of one thread; an
  interleaving is a sequence of steps.
- `ReachUnder M C tr s`: some run of `M`, all of whose steps meet the guard `C`,
  emits the trace `tr` and ends in `s`. `Reach M` is the unguarded case.
- `System.after M s`: the runs of `M` that go on from `s`.
- `Causal good tr`: every event of `tr` is `good` with respect to the events
  before it. Temporal safety ("never before", "only after", "at most once") is
  stated this way, and proved step by step with `Causal.append`.
- `Reach.simulate`: a functional simulation along an abstraction of the states
  and a partial renaming of the events.
-/

namespace Lts

universe u v w x

variable {σ : Type u} {ε : Type v}

/-- A labelled transition system; a step emits the list of events it performs. -/
structure System (σ : Type u) (ε : Type v) where
  /-- The initial states. -/
  init : σ → Prop
  /-- One atomic step. -/
  step : σ → List ε → σ → Prop

/-- A restriction on the steps of a run: it sees the trace so far, the state
before the step and the events of the step. -/
def Guard (σ : Type u) (ε : Type v) := List ε → σ → List ε → Prop

/-- The guard that restricts nothing. -/
def Guard.free : Guard σ ε := fun _ _ _ => True

/-- `ReachUnder M C tr s`: a run of `M` whose steps all meet `C` emits `tr` and
ends in `s`. -/
inductive ReachUnder (M : System σ ε) (C : Guard σ ε) : List ε → σ → Prop where
  | init {s : σ} : M.init s → ReachUnder M C [] s
  | step {tr es : List ε} {s s' : σ} :
      ReachUnder M C tr s → M.step s es s' → C tr s es → ReachUnder M C (tr ++ es) s'

/-- `Reach M tr s`: some run of `M` emits `tr` and ends in `s`. -/
def Reach (M : System σ ε) : List ε → σ → Prop := ReachUnder M Guard.free

variable {M : System σ ε} {C : Guard σ ε}

theorem Reach.init {s : σ} (h : M.init s) : Reach M [] s := ReachUnder.init h

theorem Reach.step {tr es : List ε} {s s' : σ} (h : Reach M tr s) (hs : M.step s es s') :
    Reach M (tr ++ es) s' :=
  ReachUnder.step h hs trivial

/-- A guarded run is a run. -/
theorem ReachUnder.reach {tr : List ε} {s : σ} (h : ReachUnder M C tr s) : Reach M tr s := by
  induction h with
  | init h => exact Reach.init h
  | step _ hs _ ih => exact ih.step hs

/-- A guard may be replaced by a weaker one. -/
theorem ReachUnder.mono {C' : Guard σ ε} {tr : List ε} {s : σ} (h : ReachUnder M C tr s)
    (himp : ∀ tr s es, C tr s es → C' tr s es) : ReachUnder M C' tr s := by
  induction h with
  | init h => exact .init h
  | step _ hs hc ih => exact ih.step hs (himp _ _ _ hc)

/-- **The invariant rule.** What holds initially and is kept by every step taken
from a reachable state holds after every run. -/
theorem ReachUnder.invariant {I : List ε → σ → Prop}
    (hinit : ∀ s, M.init s → I [] s)
    (hstep : ∀ tr es s s', ReachUnder M C tr s → I tr s → M.step s es s' → C tr s es →
      I (tr ++ es) s')
    {tr : List ε} {s : σ} (h : ReachUnder M C tr s) : I tr s := by
  induction h with
  | init h => exact hinit _ h
  | step hr hs hc ih => exact hstep _ _ _ _ hr ih hs hc

/-- The invariant rule for unguarded runs. -/
theorem Reach.invariant {I : List ε → σ → Prop}
    (hinit : ∀ s, M.init s → I [] s)
    (hstep : ∀ tr es s s', Reach M tr s → I tr s → M.step s es s' → I (tr ++ es) s')
    {tr : List ε} {s : σ} (h : Reach M tr s) : I tr s :=
  ReachUnder.invariant hinit (fun tr es s s' hr hi hs _ => hstep tr es s s' hr hi hs) h

/-- `M`, started in `s`. -/
def System.after (M : System σ ε) (s : σ) : System σ ε where
  init := (· = s)
  step := M.step

/-- The run that goes on from `s` has done nothing yet. -/
theorem Reach.stay {tr : List ε} {s : σ} (_ : Reach M tr s) : Reach (M.after s) [] s :=
  Reach.init rfl

/-- A run and a run from where it ended make one run. -/
theorem Reach.trans {tr es : List ε} {s s' : σ} (h : Reach M tr s)
    (h' : Reach (M.after s) es s') : Reach M (tr ++ es) s' := by
  refine Reach.invariant (M := M.after s) (I := fun es s' => Reach M (tr ++ es) s') ?_ ?_ h'
  · rintro _ rfl
    rw [List.append_nil]
    exact h
  · intro es es' s s' _ ih hs
    rw [← List.append_assoc]
    exact ih.step hs

/-- The guard as it stands after the trace `tr`. -/
def Guard.after (C : Guard σ ε) (tr : List ε) : Guard σ ε := fun tr' s es => C (tr ++ tr') s es

/-- `Reach.trans` for guarded runs. -/
theorem ReachUnder.trans {tr es : List ε} {s s' : σ} (h : ReachUnder M C tr s)
    (h' : ReachUnder (M.after s) (C.after tr) es s') : ReachUnder M C (tr ++ es) s' := by
  refine ReachUnder.invariant (M := M.after s) (I := fun es s' => ReachUnder M C (tr ++ es) s')
    ?_ ?_ h'
  · rintro _ rfl
    rw [List.append_nil]
    exact h
  · intro es es' s s' _ ih hs hC
    rw [← List.append_assoc]
    exact ih.step hs hC

/-! ## Causal traces -/

/-- Every event of the trace is `good` with respect to the events before it. -/
def Causal (good : List ε → ε → Prop) (tr : List ε) : Prop :=
  ∀ pre e post, tr = pre ++ e :: post → good pre e

variable {good : List ε → ε → Prop}

theorem Causal.nil : Causal good [] := by
  intro pre e post h
  simp at h

/-- Appending the events of a step: each new event is judged against the old
trace and the new events before it. -/
theorem Causal.append {tr es : List ε} (h : Causal good tr)
    (hes : ∀ pre e post, es = pre ++ e :: post → good (tr ++ pre) e) :
    Causal good (tr ++ es) := by
  intro pre e post heq
  rcases List.append_eq_append_iff.mp heq with ⟨mid, rfl, hmid⟩ | ⟨mid, rfl, hmid⟩
  · exact hes mid e post hmid
  · cases mid with
    | nil =>
      have := hes [] e post (by simpa using hmid.symm)
      simpa using this
    | cons e' rest =>
      obtain ⟨rfl, rfl⟩ := List.cons.inj hmid
      exact h pre e rest rfl

theorem Causal.snoc {tr : List ε} {e : ε} (h : Causal good tr) (he : good tr e) :
    Causal good (tr ++ [e]) := by
  refine h.append fun pre e' post heq => ?_
  cases pre with
  | nil =>
    obtain ⟨rfl, -⟩ := List.cons.inj heq
    simpa using he
  | cons a pre => simp at heq

theorem Causal.mono {good' : List ε → ε → Prop} {tr : List ε} (h : Causal good tr)
    (himp : ∀ pre e, good pre e → good' pre e) : Causal good' tr :=
  fun pre e post heq => himp pre e (h pre e post heq)

/-! ## Simulation -/

section Simulation

variable {τ : Type w} {ε' : Type x} {N : System τ ε'}

/-- **Functional simulation.** `f` abstracts the states and `g` keeps some of the
events under another name. If every step of `M` from a reachable state is, seen
through `f` and `g`, a step of `N` or no step at all, then every run of `M` is,
seen through `f` and `g`, a run of `N`. -/
theorem Reach.simulate (f : σ → τ) (g : ε → Option ε')
    (hinit : ∀ s, M.init s → N.init (f s))
    (hstep : ∀ tr es s s', Reach M tr s → M.step s es s' →
      (f s' = f s ∧ es.filterMap g = []) ∨ N.step (f s) (es.filterMap g) (f s'))
    {tr : List ε} {s : σ} (h : Reach M tr s) : Reach N (tr.filterMap g) (f s) := by
  refine Reach.invariant (I := fun tr s => Reach N (tr.filterMap g) (f s)) ?_ ?_ h
  · intro s hs
    exact Reach.init (hinit s hs)
  · intro tr es s s' hr ih hs
    rw [List.filterMap_append]
    rcases hstep tr es s s' hr hs with ⟨hf, hg⟩ | hN
    · rw [hf, hg, List.append_nil]
      exact ih
    · exact ih.step hN

/-- A causal property of the renamed trace, read on the original one. -/
theorem Causal.of_filterMap {good : List ε' → ε' → Prop} {g : ε → Option ε'} {tr : List ε}
    (h : Causal good (tr.filterMap g)) :
    Causal (fun pre e => ∀ e', g e = some e' → good (pre.filterMap g) e') tr := by
  rintro pre e post rfl e' he
  refine h (pre.filterMap g) e' (post.filterMap g) ?_
  rw [List.filterMap_append, List.filterMap_cons_some he]

end Simulation

end Lts
