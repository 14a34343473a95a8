import Mathlib.Data.List.Perm.Basic
import Mathlib.Data.List.Nodup
import Mathlib.Data.Finset.Card
import Mathlib.Data.Finset.Range
import Mathlib.Algebra.BigOperators.Group.Finset.Basic
import Mathlib.Algebra.BigOperators.Group.Finset.Piecewise

/-!
# Resources that move between containers

A finite stock of resources is spread over a family of containers `holds : P →
List X`. `Partitions` says that every resource lies in exactly one container and
there once, and that the containers hold nothing else. The one operation is to
move a resource from one container to another (`Partitions.move`); from the
partition follow the capacity bounds (`Partitions.length_lt`).

The second half is about families in which one member changes. `update_cases`,
`update_stay`, `update_iff`: who is where afterwards. `sum_update`: how a sum over a finite
index set changes when the summand is changed at one index. `Census`: how many members of a
family, which may be infinite, are at a given place, and how this changes when one moves.
-/

namespace Containers

universe u v

variable {P : Type u} {X : Type v}

/-- Every resource satisfying `dom` lies in exactly one container, once, and the
containers hold nothing else. -/
structure Partitions (dom : X → Prop) (holds : P → List X) : Prop where
  nodup : ∀ p, (holds p).Nodup
  sub : ∀ {p x}, x ∈ holds p → dom x
  unique : ∀ {p q x}, x ∈ holds p → x ∈ holds q → p = q
  cover : ∀ {x}, dom x → ∃ p, x ∈ holds p

namespace Partitions

variable {dom : X → Prop} {holds holds' : P → List X}

theorem not_mem (h : Partitions dom holds) {p q : P} {x : X} (hx : x ∈ holds p) (hpq : q ≠ p) :
    x ∉ holds q :=
  fun hq => hpq (h.unique hq hx)

/-- **Moving one resource.** `x` leaves `p` and enters `q`; the other containers
are unchanged. -/
theorem move (h : Partitions dom holds) {p q : P} {x : X} (hpq : p ≠ q)
    (hp : (holds p).Perm (x :: holds' p)) (hq : (holds' q).Perm (x :: holds q))
    (hother : ∀ r, r ≠ p → r ≠ q → holds' r = holds r) : Partitions dom holds' := by
  have hxp : x ∈ holds p := hp.mem_iff.mpr (List.mem_cons_self ..)
  have hndp : (x :: holds' p).Nodup := hp.nodup_iff.mp (h.nodup p)
  have hxq : x ∉ holds q := h.not_mem hxp (Ne.symm hpq)
  -- where the members of a container after the move were before it
  have back : ∀ {r y}, y ∈ holds' r → y ≠ x → y ∈ holds r := by
    intro r y hy hyx
    by_cases hrp : r = p
    · subst hrp
      exact hp.mem_iff.mpr (List.mem_cons_of_mem _ hy)
    · by_cases hrq : r = q
      · subst hrq
        rcases List.mem_cons.mp (hq.mem_iff.mp hy) with h' | h'
        · exact absurd h' hyx
        · exact h'
      · rwa [hother r hrp hrq] at hy
  have only : ∀ {r}, x ∈ holds' r → r = q := by
    intro r hr
    by_cases hrp : r = p
    · subst hrp
      exact absurd hr (List.nodup_cons.mp hndp).1
    · by_cases hrq : r = q
      · exact hrq
      · rw [hother r hrp hrq] at hr
        exact absurd (h.unique hr hxp) hrp
  refine ⟨?_, ?_, ?_, ?_⟩
  · intro r
    by_cases hrp : r = p
    · subst hrp
      exact (List.nodup_cons.mp hndp).2
    · by_cases hrq : r = q
      · subst hrq
        exact hq.nodup_iff.mpr (List.nodup_cons.mpr ⟨hxq, h.nodup _⟩)
      · rw [hother r hrp hrq]
        exact h.nodup r
  · intro r y hy
    by_cases hyx : y = x
    · subst hyx
      exact h.sub hxp
    · exact h.sub (back hy hyx)
  · intro r r' y hy hy'
    by_cases hyx : y = x
    · subst hyx
      rw [only hy, only hy']
    · exact h.unique (back hy hyx) (back hy' hyx)
  · intro y hy
    by_cases hyx : y = x
    · subst hyx
      exact ⟨q, hq.mem_iff.mpr (List.mem_cons_self ..)⟩
    · obtain ⟨r, hr⟩ := h.cover hy
      refine ⟨r, ?_⟩
      by_cases hrp : r = p
      · subst hrp
        exact (List.mem_cons.mp (hp.mem_iff.mp hr)).resolve_left hyx
      · by_cases hrq : r = q
        · subst hrq
          exact hq.mem_iff.mpr (List.mem_cons_of_mem _ hr)
        · rw [hother r hrp hrq]
          exact hr

/-- **Capacity.** While one of `n` resources lies elsewhere, a container holds
fewer than `n`. -/
theorem length_lt {n : Nat} {holds : P → List Nat} (h : Partitions (· < n) holds) {p q : P}
    {x : Nat} (hx : x ∈ holds p) (hpq : q ≠ p) : (holds q).length < n := by
  have hnd : (x :: holds q).Nodup := List.nodup_cons.mpr ⟨h.not_mem hx hpq, h.nodup q⟩
  have hsub : (x :: holds q).toFinset ⊆ Finset.range n := by
    intro y hy
    rw [List.mem_toFinset, List.mem_cons] at hy
    rw [Finset.mem_range]
    rcases hy with rfl | hy
    · exact h.sub hx
    · exact h.sub hy
  have hcard := Finset.card_le_card hsub
  rw [List.toFinset_card_of_nodup hnd, Finset.card_range] at hcard
  exact hcard

/-- While all other containers are empty, a container holds all `n` resources. -/
theorem perm_range {n : Nat} {holds : P → List Nat} (h : Partitions (· < n) holds) {p : P}
    (hempty : ∀ q, q ≠ p → holds q = []) : (holds p).Perm (List.range n) := by
  rw [List.perm_ext_iff_of_nodup (h.nodup p) List.nodup_range]
  intro x
  rw [List.mem_range]
  refine ⟨h.sub, fun hx => ?_⟩
  obtain ⟨q, hq⟩ := h.cover hx
  by_cases hqp : q = p
  · exact hqp ▸ hq
  · rw [hempty q hqp] at hq
    cases hq

end Partitions

/-! ## A family in which one member changes -/

section Update

variable {ι : Type u} [DecidableEq ι] {α : Type v} {g : ι → α} {i j : ι} {a b : α}

theorem update_cases (h : Function.update g i a j = b) : (j = i ∧ a = b) ∨ (j ≠ i ∧ g j = b) := by
  by_cases hj : j = i
  · subst hj
    rw [Function.update_self] at h
    exact Or.inl ⟨rfl, h⟩
  · rw [Function.update_of_ne hj] at h
    exact Or.inr ⟨hj, h⟩

/-- The member that changes is elsewhere. -/
theorem update_stay (hj : g j = b) (hi : g i ≠ b) : Function.update g i a j = b := by
  have hji : j ≠ i := by
    rintro rfl
    exact hi hj
  rw [Function.update_of_ne hji]
  exact hj

/-- The member that changes is elsewhere, before and after. -/
theorem update_iff (hi : g i ≠ b) (ha : a ≠ b) : Function.update g i a j = b ↔ g j = b := by
  constructor
  · intro h
    rcases update_cases h with ⟨-, hab⟩ | ⟨-, hj⟩
    · exact absurd hab ha
    · exact hj
  · exact fun hj => update_stay hj hi

end Update

/-! ## Counting over an updated family -/

/-- Changing a family at one index of a finite sum trades the old summand for
the new one. -/
theorem sum_update {ι : Type u} [DecidableEq ι] {α : Type v} (S : Finset ι) (g : ι → α)
    (f : α → Nat) {i : ι} (hi : i ∈ S) (a : α) :
    (∑ j ∈ S, f (Function.update g i a j)) + f (g i) = (∑ j ∈ S, f (g j)) + f a := by
  have hrest : ∑ j ∈ S.erase i, f (Function.update g i a j) = ∑ j ∈ S.erase i, f (g j) := by
    refine Finset.sum_congr rfl fun j hj => ?_
    rw [Function.update_of_ne (Finset.ne_of_mem_erase hj)]
  rw [← Finset.add_sum_erase S _ hi, ← Finset.add_sum_erase S (fun j => f (g j)) hi, hrest,
    Function.update_self]
  omega

/-- Exactly `n` members of the family `g` are where `p` holds. -/
def Census {ι : Type u} {α : Type v} (p : α → Prop) (g : ι → α) (n : Nat) : Prop :=
  ∃ S : Finset ι, (∀ i, i ∈ S ↔ p (g i)) ∧ S.card = n

namespace Census

variable {ι : Type u} {α : Type v} {p : α → Prop} {g : ι → α} {n : Nat} {i : ι} {a : α}

theorem zero (h : ∀ i, ¬ p (g i)) : Census p g 0 :=
  ⟨∅, fun i => iff_of_false (Finset.notMem_empty i) (h i), Finset.card_empty⟩

theorem pos (h : Census p g n) (hi : p (g i)) : 0 < n := by
  obtain ⟨S, hmem, rfl⟩ := h
  exact Finset.card_pos.mpr ⟨i, (hmem i).mpr hi⟩

variable [DecidableEq ι]

/-- A member arrives. -/
theorem enter (h : Census p g n) (hi : ¬ p (g i)) (ha : p a) :
    Census p (Function.update g i a) (n + 1) := by
  obtain ⟨S, hmem, rfl⟩ := h
  refine ⟨insert i S, fun j => ?_, Finset.card_insert_of_notMem (mt (hmem i).mp hi)⟩
  rw [Finset.mem_insert]
  by_cases hj : j = i
  · subst hj
    rw [Function.update_self]
    exact iff_of_true (Or.inl rfl) ha
  · rw [Function.update_of_ne hj, or_iff_right hj]
    exact hmem j

/-- A member leaves. -/
theorem leave (h : Census p g n) (hi : p (g i)) (ha : ¬ p a) :
    Census p (Function.update g i a) (n - 1) := by
  obtain ⟨S, hmem, rfl⟩ := h
  refine ⟨S.erase i, fun j => ?_, Finset.card_erase_of_mem ((hmem i).mpr hi)⟩
  rw [Finset.mem_erase]
  by_cases hj : j = i
  · subst hj
    rw [Function.update_self]
    exact iff_of_false (fun hc => hc.1 rfl) ha
  · rw [Function.update_of_ne hj, and_iff_right hj]
    exact hmem j

/-- A member moves elsewhere, or from one such place to another. -/
theorem stay (h : Census p g n) (ha : p a ↔ p (g i)) : Census p (Function.update g i a) n := by
  obtain ⟨S, hmem, hcard⟩ := h
  refine ⟨S, fun j => ?_, hcard⟩
  by_cases hj : j = i
  · subst hj
    rw [Function.update_self, ha]
    exact hmem j
  · rw [Function.update_of_ne hj]
    exact hmem j

end Census

end Containers
