import Tagaspi.Lib.Lts

/-!
# Programs that share a lock

A program is verified with critical sections that one thread enters at a time; its code
has a lock in that place, with a protocol of its own. This library puts the two together.

- `Lock`: an implementation of a lock, with the `Phase` of every thread. `Excludes`: on the
  runs it is made for, it lets one thread in at a time.
- `Client`: a program with critical sections. `Client.ideal`: a section is entered when no
  thread is in one.
- `Client.behind`: the program behind a lock. The threads enter when the lock lets them in, and
  between the call of a lock operation and its return they do nothing else.
- `Client.refines`: every run behind a lock that excludes is a run of the ideal program.
-/

namespace Lts

universe u v w x y

variable {T : Type u} {κ : Type v} {ι : Type w} {σ : Type x} {ε : Type y}

/-! ## Locks -/

/-- Where a thread stands towards the lock. -/
inductive Phase where
  | outside
  /-- It has called `lock`, or `trylock`. -/
  | entering
  | inside
  /-- It has called `unlock`. -/
  | leaving
deriving DecidableEq, Repr

/-- A lock; `step t` are the steps of thread `t`. -/
structure Lock (T : Type u) (κ : Type v) (ι : Type w) where
  init : κ → Prop
  step : T → κ → List ι → κ → Prop
  phase : κ → T → Phase
  /-- A thread moves nobody but itself. -/
  frame {t u : T} {k k' : κ} {is : List ι} : step t k is k' → u ≠ t → phase k' u = phase k u

/-- The lock on its own. -/
def Lock.system (L : Lock T κ ι) : System κ ι where
  init := L.init
  step k is k' := ∃ t, L.step t k is k'

/-- On runs with a trace that is `few`, one thread at a time is inside. -/
structure Lock.Excludes (L : Lock T κ ι) (few : List ι → Prop) : Prop where
  few_of_append {tr is : List ι} : few (tr ++ is) → few tr
  unique {tr : List ι} {k : κ} {t u : T} : Reach L.system tr k → few tr →
    L.phase k t = .inside → L.phase k u = .inside → t = u

/-! ## Programs -/

/-- A program with critical sections. -/
structure Client (T : Type u) (σ : Type x) (ε : Type y) where
  init : σ → Prop
  /-- The thread is in its critical section. -/
  locked : σ → T → Prop
  /-- The thread may call `lock`. -/
  wants : σ → T → Prop
  /-- A thread enters its critical section. -/
  enter : T → σ → List ε → σ → Prop
  /-- A step of a thread that does not; it may leave its critical section. -/
  own : T → σ → List ε → σ → Prop
  init_unlocked {s : σ} {t : T} : init s → ¬ locked s t
  enter_locked {s s' : σ} {t u : T} {es : List ε} : enter t s es s' → locked s' u →
    u = t ∨ locked s u
  own_locked {s s' : σ} {t u : T} {es : List ε} : own t s es s' → locked s' u → locked s u

namespace Client

variable (P : Client T σ ε) (L : Lock T κ ι)

inductive IdealStep : σ → List ε → σ → Prop where
  | enter {t : T} {s s' : σ} {es : List ε} :
      P.enter t s es s' → (∀ u, ¬ P.locked s u) → IdealStep s es s'
  | own {t : T} {s s' : σ} {es : List ε} : P.own t s es s' → IdealStep s es s'

/-- The program, if a critical section is entered when nobody is in one. -/
def ideal : System σ ε where
  init := P.init
  step := P.IdealStep

inductive OverStep : κ × σ → List (ι ⊕ ε) → κ × σ → Prop where
  /-- A thread goes on in a lock operation, or calls one: `lock` where the program wants it,
  and `unlock` after the critical section. -/
  | lock {t : T} {k k' : κ} {s : σ} {is : List ι} :
      L.step t k is k' → (L.phase k' t = .inside → L.phase k t = .inside) →
      (L.phase k t = .outside → L.phase k' t ≠ .outside → P.wants s t) →
      (L.phase k t = .inside → L.phase k' t ≠ .inside → ¬ P.locked s t) →
      OverStep (k, s) (is.map .inl) (k', s)
  /-- The lock lets the thread in. -/
  | enter {t : T} {k k' : κ} {s s' : σ} {is : List ι} {es : List ε} :
      L.step t k is k' → L.phase k t ≠ .inside → L.phase k' t = .inside → P.enter t s es s' →
      OverStep (k, s) (is.map .inl ++ es.map .inr) (k', s')
  /-- A thread that is in no lock operation, and has nothing left to unlock. -/
  | own {t : T} {k : κ} {s s' : σ} {es : List ε} :
      P.own t s es s' → L.phase k t = .outside ∨ L.phase k t = .inside ∧ P.locked s t →
      OverStep (k, s) (es.map .inr) (k, s')

/-- The program behind the lock. -/
def behind : System (κ × σ) (ι ⊕ ε) where
  init c := L.init c.1 ∧ P.init c.2
  step := P.OverStep L

end Client

/-- What the lock does in a run behind it. -/
def lockTrace (tr : List (ι ⊕ ε)) : List ι := tr.filterMap Sum.getLeft?

/-- What the program does in a run behind a lock. -/
def clientTrace (tr : List (ι ⊕ ε)) : List ε := tr.filterMap Sum.getRight?

section Traces

variable {tr es : List (ι ⊕ ε)}

@[simp] theorem lockTrace_append : lockTrace (tr ++ es) = lockTrace tr ++ lockTrace es :=
  List.filterMap_append

@[simp] theorem clientTrace_append :
    clientTrace (tr ++ es) = clientTrace tr ++ clientTrace es := List.filterMap_append

@[simp] theorem lockTrace_inl (is : List ι) :
    lockTrace (is.map Sum.inl : List (ι ⊕ ε)) = is := by
  unfold lockTrace
  rw [List.filterMap_map]
  exact List.filterMap_some

@[simp] theorem lockTrace_inr (es : List ε) :
    lockTrace (es.map Sum.inr : List (ι ⊕ ε)) = [] := by
  simp [lockTrace, List.filterMap_map, Function.comp_def]

@[simp] theorem clientTrace_inl (is : List ι) :
    clientTrace (is.map Sum.inl : List (ι ⊕ ε)) = [] := by
  simp [clientTrace, List.filterMap_map, Function.comp_def]

@[simp] theorem clientTrace_inr (es : List ε) :
    clientTrace (es.map Sum.inr : List (ι ⊕ ε)) = es := by
  unfold clientTrace
  rw [List.filterMap_map]
  exact List.filterMap_some

end Traces

/-! ## Refinement -/

namespace Client

variable {P : Client T σ ε} {L : Lock T κ ι}

/-- In the ideal program one thread at a time is in its critical section. -/
theorem ideal_unique {tr : List ε} {s : σ} (hr : Reach P.ideal tr s) {t u : T}
    (ht : P.locked s t) (hu : P.locked s u) : t = u := by
  revert t u
  refine hr.invariant (I := fun _ s => ∀ {t u}, P.locked s t → P.locked s u → t = u) ?_ ?_
  · intro s hi t _ ht
    exact absurd ht (P.init_unlocked hi)
  · intro tr es s s' _ ih hs t u ht hu
    cases hs with
    | enter henter hnone =>
      have only : ∀ {v}, P.locked s' v → v = _ := fun hv =>
        (P.enter_locked henter hv).resolve_right (hnone _)
      rw [only ht, only hu]
    | own hown => exact ih (P.own_locked hown ht) (P.own_locked hown hu)

/-- The lock in a run behind it. -/
theorem lock_reach {tr : List (ι ⊕ ε)} {c : κ × σ} (hr : Reach (P.behind L) tr c) :
    Reach L.system (lockTrace tr) c.1 := by
  refine hr.simulate (M := P.behind L) (N := L.system) Prod.fst Sum.getLeft? (fun _ hi => hi.1) ?_
  intro tr es c c' _ hs
  cases hs with
  | lock hl =>
    exact .inr (by rw [show List.filterMap _ _ = _ from lockTrace_inl _]; exact ⟨_, hl⟩)
  | enter hl _ _ _ =>
    refine .inr ?_
    rw [show List.filterMap _ _ = _ from lockTrace_append, lockTrace_inl, lockTrace_inr,
      List.append_nil]
    exact ⟨_, hl⟩
  | own => exact .inl ⟨rfl, lockTrace_inr _⟩

variable {few : List ι → Prop}

/-- A thread that the lock lets in finds nobody in a critical section. -/
theorem free_of_enter (hL : L.Excludes few) {s : σ} {t : T} {k k' : κ} {tr is : List ι}
    (hin : ∀ u, P.locked s u → L.phase k u = .inside) (hr : Reach L.system tr k') (hfew : few tr)
    (hl : L.step t k is k') (hout : L.phase k t ≠ .inside) (hentered : L.phase k' t = .inside)
    (u : T) : ¬ P.locked s u := by
  intro hu
  have hut : u ≠ t := by
    rintro rfl
    exact hout (hin u hu)
  exact hut (hL.unique hr hfew ((L.frame hl hut).trans (hin u hu)) hentered)

/-- **A lock makes critical sections.** Every run of the program behind a lock is a run of the ideal
program, and a thread in its critical section is inside the lock. -/
theorem refines (hL : L.Excludes few) {tr : List (ι ⊕ ε)} {c : κ × σ}
    (hr : Reach (P.behind L) tr c) (hfew : few (lockTrace tr)) :
    Reach P.ideal (clientTrace tr) c.2 ∧ ∀ t, P.locked c.2 t → L.phase c.1 t = .inside := by
  refine hr.invariant (I := fun tr c => few (lockTrace tr) → Reach P.ideal (clientTrace tr) c.2 ∧
    ∀ t, P.locked c.2 t → L.phase c.1 t = .inside) ?_ ?_ hfew
  · exact fun c hi _ => ⟨.init hi.2, fun t ht => absurd ht (P.init_unlocked hi.2)⟩
  · intro tr es c c' hr ih hs hfew
    have hlock := lock_reach (hr.step hs)
    rw [lockTrace_append] at hfew
    obtain ⟨hideal, hin⟩ := ih (hL.few_of_append hfew)
    rw [← lockTrace_append] at hfew
    rw [clientTrace_append]
    cases hs with
    | @lock t k k' s is hl _ _ hleave =>
      rw [clientTrace_inl, List.append_nil]
      refine ⟨hideal, fun u hu => ?_⟩
      by_cases hut : u = t
      · -- a thread does not call `unlock` in its critical section
        subst hut
        by_contra hne
        exact hleave (hin u hu) hne hu
      · exact (L.frame hl hut).trans (hin u hu)
    | @enter t k k' s s' is es hl hout hentered henter =>
      have hnone := free_of_enter hL hin hlock hfew hl hout hentered
      rw [clientTrace_append, clientTrace_inl, clientTrace_inr, List.nil_append]
      refine ⟨hideal.step (.enter henter hnone), fun u hu => ?_⟩
      obtain rfl := (P.enter_locked henter hu).resolve_right (hnone u)
      exact hentered
    | own hown _ =>
      rw [clientTrace_inr]
      exact ⟨hideal.step (.own hown), fun u hu => hin u (P.own_locked hown hu)⟩

end Client

end Lts
