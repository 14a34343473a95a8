import Mathlib.Algebra.Order.Ring.Nat
import Tagaspi.Lib.Containers
import Tagaspi.Lib.Lock

/-!
# The spin lock (`SpinLock.hpp`)

A ticket lock with an array of `Size` slots: `lock` draws a ticket and spins on the slot
`ticket % Size` until the ticket appears there, `unlock` writes the next ticket into its
slot. `trylock` draws a ticket only if that ticket may enter at once.

- `Step`, `machine`: the atomic accesses of any number of threads.
- `Inv`: who owns which ticket, and what the slots say.
- `spinLock_fair`: mutual exclusion, ticket order, and no hand-off is lost.
- `refines_mutex`: seen from outside, the lock is a variable that names its holder.
- `lock`, `excludes`: the lock, as the programs that share it use it.
-/

namespace Tagaspi

open Lts Containers

namespace SpinLock

/-- `head % Size`. -/
def slot (size : Nat) [NeZero size] (ticket : Nat) : Fin size := Fin.ofNat size ticket

/-- `n + 1` on a `size_t`. -/
def succSize (n : Nat) : Nat := (n + 1) % 2 ^ 64

/-- Where a thread stands. -/
inductive Pc (size : Nat) where
  | idle
  /-- `lock` has drawn a ticket. -/
  | spinning (head : Nat)
  /-- `trylock` has loaded `_head`. -/
  | tried (head : Nat)
  /-- `trylock` has found the ticket in its slot. -/
  | matched (head : Nat)
  | holding
  /-- `unlock` has incremented `_next`. -/
  | releasing (idx : Fin size)
deriving DecidableEq, Repr

structure State (T : Type) (size : Nat) where
  buffer : Fin size → Nat
  head : Nat
  next : Nat
  pc : T → Pc size

inductive Event (T : Type) where
  /-- `t` takes a ticket. -/
  | drawn (t : T) (ticket : Nat)
  /-- `lock` returns, or `trylock` returns `true`. -/
  | entered (t : T) (ticket : Nat)
  /-- `unlock` returns. -/
  | released (t : T)
deriving DecidableEq, Repr

section Machine

variable {T : Type} [DecidableEq T] {size : Nat}

def State.goto (s : State T size) (t : T) (c : Pc size) : State T size :=
  { s with pc := Function.update s.pc t c }

theorem pc_goto_self {s : State T size} {t : T} {c : Pc size} : (s.goto t c).pc t = c :=
  Function.update_self ..

theorem pc_goto_of_ne {s : State T size} {t u : T} {c : Pc size} (hu : u ≠ t) :
    (s.goto t c).pc u = s.pc u := Function.update_of_ne hu ..

theorem pc_goto {s : State T size} {t u : T} {c c' : Pc size} (h : (s.goto t c).pc u = c') :
    (u = t ∧ c = c') ∨ (u ≠ t ∧ s.pc u = c') := update_cases h

/-- Neither a ticket nor the lock is at stake. -/
def Pc.outside : Pc size → Bool
  | .idle | .tried _ | .matched _ => true
  | .spinning _ | .holding | .releasing _ => false

theorem pc_goto_outside {s : State T size} {t u : T} {c c' : Pc size}
    (hold : (s.pc t).outside = true) (hnew : c.outside = true) (hc' : c'.outside = false) :
    (s.goto t c).pc u = c' ↔ s.pc u = c' := by
  refine update_iff ?_ ?_
  · rintro rfl
    rw [hold] at hc'
    cases hc'
  · rintro rfl
    rw [hnew] at hc'
    cases hc'

variable [NeZero size]

/-- One atomic access of one thread. -/
inductive Step : State T size → List (Event T) → State T size → Prop where
  -- lock
  | draw {s : State T size} {t : T} :
      s.pc t = .idle →
      Step s [.drawn t s.head] { s.goto t (.spinning s.head) with head := succSize s.head }
  | spin {s : State T size} {t : T} {head : Nat} :
      s.pc t = .spinning head → s.buffer (slot size head) ≠ head →
      Step s [] s
  | enter {s : State T size} {t : T} {head : Nat} :
      s.pc t = .spinning head → s.buffer (slot size head) = head →
      Step s [.entered t head] (s.goto t .holding)
  -- trylock
  | tryLoad {s : State T size} {t : T} :
      s.pc t = .idle →
      Step s [] (s.goto t (.tried s.head))
  | tryBusy {s : State T size} {t : T} {head : Nat} :
      s.pc t = .tried head → s.buffer (slot size head) ≠ head →
      Step s [] (s.goto t .idle)
  | tryMatch {s : State T size} {t : T} {head : Nat} :
      s.pc t = .tried head → s.buffer (slot size head) = head →
      Step s [] (s.goto t (.matched head))
  | tryTake {s : State T size} {t : T} {head : Nat} :
      s.pc t = .matched head → s.head = head →
      Step s [.drawn t head, .entered t head]
        { s.goto t .holding with head := succSize head }
  | tryLost {s : State T size} {t : T} {head : Nat} :
      s.pc t = .matched head → s.head ≠ head →
      Step s [] (s.goto t .idle)
  -- unlock
  | unlockNext {s : State T size} {t : T} :
      s.pc t = .holding →
      Step s [] { s.goto t (.releasing (slot size (succSize s.next))) with next := succSize s.next }
  | unlockStore {s : State T size} {t : T} {idx : Fin size} :
      s.pc t = .releasing idx →
      Step s [.released t]
        { s.goto t .idle with buffer := Function.update s.buffer idx s.next }

/-- After the constructor. -/
def State.initial : State T size where
  buffer _ := 0
  head := 0
  next := 0
  pc _ := .idle

variable (T size) in
/-- The lock under the threads `T`. -/
def machine : System (State T size) (Event T) where
  init := (· = .initial)
  step := Step

end Machine

/-! ## Tickets -/

section Tickets

variable {T : Type}

/-- The ticket that an event takes. -/
def Event.draws : Event T → Option (T × Nat)
  | .drawn t ticket => some (t, ticket)
  | .entered .. | .released _ => none

/-- The ticket with which an event acquires the lock. -/
def Event.enters : Event T → Option (T × Nat)
  | .entered t ticket => some (t, ticket)
  | .drawn .. | .released _ => none

/-- The threads and their tickets, in the order in which they took them. -/
def drawn (tr : List (Event T)) : List (T × Nat) := tr.filterMap Event.draws

/-- The threads and their tickets, in the order in which they got the lock. -/
def entered (tr : List (Event T)) : List (T × Nat) := tr.filterMap Event.enters

theorem drawn_append (tr es : List (Event T)) : drawn (tr ++ es) = drawn tr ++ drawn es :=
  List.filterMap_append

theorem entered_append (tr es : List (Event T)) : entered (tr ++ es) = entered tr ++ entered es :=
  List.filterMap_append

end Tickets

/-! ## The invariant -/

section Invariant

variable {T : Type} {size : Nat}

/-- `t` has the ticket and has not passed it on. -/
def Owns (s : State T size) (t : T) (ticket : Nat) : Prop :=
  s.pc t = .spinning ticket ∨ (s.pc t = .holding ∧ ticket = s.next)

/-- `t` is between the return of `lock` or `trylock` and the return of `unlock`. -/
def Critical (s : State T size) (t : T) : Prop :=
  s.pc t = .holding ∨ ∃ idx, s.pc t = .releasing idx

/-- `Critical`, read off the program counter. -/
def Pc.inside : Pc size → Bool
  | .holding | .releasing _ => true
  | .idle | .spinning _ | .tried _ | .matched _ => false

theorem critical_iff {s : State T size} {t : T} : Critical s t ↔ (s.pc t).inside = true := by
  unfold Critical
  cases s.pc t <;> simp [Pc.inside]

/-- Only the thread that moves can get in or out. -/
theorem critical_goto_of_ne [DecidableEq T] {s : State T size} {t u : T} {c : Pc size}
    (hu : u ≠ t) :
    Critical (s.goto t c) u ↔ Critical s u := by
  unfold Critical
  rw [pc_goto_of_ne hu]

variable [NeZero size]

/-- **The invariant**: the tickets from `_next` on have their owners, and the slots hold no
ticket above the last one released. -/
structure Inv (tr : List (Event T)) (s : State T size) : Prop where
  tickets : (drawn tr).map Prod.snd = List.range s.head
  next_le : s.next ≤ s.head
  owner : ∀ t ticket, Owns s t ticket → s.next ≤ ticket ∧ (drawn tr)[ticket]? = some (t, ticket)
  covered : ∀ ticket, s.next ≤ ticket → ticket < s.head → ∃ t, Owns s t ticket
  critical : ∀ t u, Critical s t → Critical s u → t = u
  slots : ∀ i, s.buffer i ≤ s.next
  matched : ∀ t ticket, s.pc t = .matched ticket → ticket ≤ s.next
  /-- The holder increments `_next` before it writes the slot. -/
  releasing : ∀ t idx, s.pc t = .releasing idx → idx = slot size s.next ∧
    (∀ i, s.buffer i < s.next) ∧ ∀ u ticket, s.pc u = .matched ticket → ticket < s.next
  handed : (∀ t idx, s.pc t ≠ .releasing idx) → s.buffer (slot size s.next) = s.next
  free : (∀ t, s.pc t ≠ .holding) → entered tr = (drawn tr).take s.next
  held : ∀ t, s.pc t = .holding → entered tr = (drawn tr).take (s.next + 1)

theorem inv_initial : Inv ([] : List (Event T)) (.initial : State T size) where
  tickets := rfl
  next_le := Nat.le_refl _
  owner t ticket ho := by rcases ho with h | ⟨h, -⟩ <;> cases h
  covered ticket _ hlt := absurd hlt (Nat.not_lt_zero _)
  critical t u ht := by rcases ht with h | ⟨_, h⟩ <;> cases h
  slots _ := Nat.le_refl _
  matched t ticket h := by cases h
  releasing t idx h := by cases h
  handed _ := rfl
  free _ := rfl
  held t h := by cases h

variable {tr : List (Event T)} {s : State T size} {t u : T} {ticket : Nat} {c : Pc size}

theorem Inv.length_drawn (h : Inv tr s) : (drawn tr).length = s.head := by
  have hlen := congrArg List.length h.tickets
  rwa [List.length_map, List.length_range] at hlen

/-- The ticket is below `_head`. -/
theorem Inv.lt_head (h : Inv tr s) (ho : Owns s t ticket) : ticket < s.head := by
  rw [← h.length_drawn]
  exact (List.getElem?_eq_some_iff.mp (h.owner t ticket ho).2).1

/-- A ticket has one owner. -/
theorem Inv.owner_unique (h : Inv tr s) (ht : Owns s t ticket) (hu : Owns s u ticket) : t = u := by
  have heq := (h.owner t ticket ht).2.symm.trans (h.owner u ticket hu).2
  rw [Option.some.injEq, Prod.mk.injEq] at heq
  exact heq.1

/-- The ticket that the slot shows is `_next`, and nobody is inside. -/
theorem Inv.shown (h : Inv tr s) (hc : s.pc t = .spinning ticket)
    (hslot : s.buffer (slot size ticket) = ticket) : ticket = s.next ∧ ∀ u, ¬ Critical s u := by
  have ho : Owns s t ticket := .inl hc
  have hle := (h.owner t ticket ho).1
  have hge := h.slots (slot size ticket)
  have heq : ticket = s.next := by omega
  refine ⟨heq, fun u hu => ?_⟩
  rcases hu with hu | ⟨idx, hu⟩
  · -- the holder would own the same ticket
    have := h.owner_unique ho (.inr ⟨hu, heq⟩)
    rw [← this, hc] at hu
    cases hu
  · have := (h.releasing u idx hu).2.1 (slot size ticket)
    omega

/-- If the ticket that `trylock` found in its slot is still `_head`, nobody is inside. -/
theorem Inv.matched_free (h : Inv tr s) (hc : s.pc t = .matched s.head) :
    s.next = s.head ∧ ∀ u, ¬ Critical s u := by
  have hnext : s.next = s.head := Nat.le_antisymm h.next_le (h.matched t s.head hc)
  refine ⟨hnext, ?_⟩
  rintro u (hu | ⟨idx, hu⟩)
  · exact Nat.lt_irrefl _ (hnext ▸ h.lt_head (.inr ⟨hu, rfl⟩))
  · exact Nat.lt_irrefl _ (hnext ▸ (h.releasing u idx hu).2.2 t s.head hc)

/-! ## Steps -/

variable [DecidableEq T]

/-- A step of `trylock` that takes no ticket. -/
theorem Inv.outside (h : Inv tr s) (hold : (s.pc t).outside = true) (hnew : c.outside = true)
    (hmatched : ∀ ticket, c = .matched ticket → ticket ≤ s.next ∧
      ∀ u idx, s.pc u = .releasing idx → ticket < s.next) : Inv tr (s.goto t c) := by
  have hpc : ∀ {u : T} {c' : Pc size}, c'.outside = false →
      ((s.goto t c).pc u = c' ↔ s.pc u = c') := fun hc' => pc_goto_outside hold hnew hc'
  have howns : ∀ u ticket, Owns (s.goto t c) u ticket ↔ Owns s u ticket := fun u ticket =>
    or_congr (hpc rfl) (and_congr_left' (hpc rfl))
  have hcrit : ∀ u, Critical (s.goto t c) u ↔ Critical s u := fun u =>
    or_congr (hpc rfl) (exists_congr fun _ => hpc rfl)
  refine ⟨h.tickets, h.next_le, fun u ticket ho => h.owner u ticket ((howns u ticket).mp ho),
    ?_, ?_, h.slots, ?_, ?_, ?_, ?_, fun u hu => h.held u ((hpc rfl).mp hu)⟩
  · intro ticket hle hlt
    obtain ⟨u, ho⟩ := h.covered ticket hle hlt
    exact ⟨u, (howns u ticket).mpr ho⟩
  · intro u v hu hv
    exact h.critical u v ((hcrit u).mp hu) ((hcrit v).mp hv)
  · intro u ticket hu
    rcases pc_goto hu with ⟨-, hc⟩ | ⟨-, hu'⟩
    · exact (hmatched ticket hc).1
    · exact h.matched u ticket hu'
  · intro u idx hu
    have hu' := (hpc rfl).mp hu
    obtain ⟨hidx, hslots, hlt⟩ := h.releasing u idx hu'
    refine ⟨hidx, hslots, fun v ticket hv => ?_⟩
    rcases pc_goto hv with ⟨-, hc⟩ | ⟨-, hv'⟩
    · exact (hmatched ticket hc).2 u idx hu'
    · exact hlt v ticket hv'
  · intro hnone
    exact h.handed fun u idx hu => hnone u idx ((hpc rfl).mpr hu)
  · intro hnone
    exact h.free fun u hu => hnone u ((hpc rfl).mpr hu)

/-- A thread draws a ticket. -/
theorem Inv.draw (h : Inv tr s) (hout : (s.pc t).outside = true) :
    Inv (tr ++ [.drawn t s.head]) { s.goto t (.spinning s.head) with head := s.head + 1 } := by
  have hdrawn : drawn (tr ++ [.drawn t s.head]) = drawn tr ++ [(t, s.head)] := drawn_append _ _
  have hentered : entered (tr ++ [.drawn t s.head]) = entered tr := by
    rw [entered_append]
    exact List.append_nil _
  have hlen := h.length_drawn
  have hnext := h.next_le
  -- the thread that draws neither owned a ticket nor held the lock
  have hne : ∀ {c' : Pc size}, c'.outside = false → s.pc t ≠ c' := by
    rintro c' hc' rfl
    rw [hc'] at hout
    cases hout
  have hpc : ∀ {u : T} {c' : Pc size}, c'.outside = false → (∀ k, c' ≠ .spinning k) →
      ((s.goto t (.spinning s.head)).pc u = c' ↔ s.pc u = c') := fun hc' hspin =>
    update_iff (hne hc') (hspin _).symm
  have hcrit : ∀ u, Critical { s.goto t (.spinning s.head) with head := s.head + 1 } u ↔
      Critical s u := fun u =>
    or_congr (hpc rfl fun _ hk => by cases hk)
      (exists_congr fun _ => hpc rfl fun _ hk => by cases hk)
  refine ⟨?_, Nat.le_succ_of_le hnext, ?_, ?_, ?_, h.slots, ?_, ?_, ?_, ?_, ?_⟩
  · rw [hdrawn, List.map_append, h.tickets]
    exact List.range_succ.symm
  · -- the new ticket is the last one drawn
    intro u ticket ho
    have hcases : (u = t ∧ ticket = s.head) ∨ Owns s u ticket := by
      rcases ho with hu | ⟨hu, hticket⟩
      · rcases pc_goto hu with ⟨hut, hc⟩ | ⟨-, hu'⟩
        · exact .inl ⟨hut, (Pc.spinning.inj hc).symm⟩
        · exact .inr (.inl hu')
      · exact .inr (.inr ⟨(hpc rfl fun _ hk => by cases hk).mp hu, hticket⟩)
    rw [hdrawn]
    rcases hcases with ⟨rfl, rfl⟩ | ho'
    · refine ⟨hnext, ?_⟩
      rw [← hlen, List.getElem?_concat_length]
    · obtain ⟨hle, hget⟩ := h.owner u ticket ho'
      refine ⟨hle, ?_⟩
      rw [List.getElem?_append_left (by rw [hlen]; exact h.lt_head ho')]
      exact hget
  · intro ticket hle hlt
    rcases Nat.lt_succ_iff_lt_or_eq.mp hlt with hlt' | rfl
    · obtain ⟨u, ho⟩ := h.covered ticket hle hlt'
      refine ⟨u, ?_⟩
      rcases ho with hu | ⟨hu, hticket⟩
      · exact .inl (update_stay hu (hne rfl))
      · exact .inr ⟨update_stay hu (hne rfl), hticket⟩
    · exact ⟨t, .inl pc_goto_self⟩
  · intro u v hu hv
    exact h.critical u v ((hcrit u).mp hu) ((hcrit v).mp hv)
  · intro u ticket hu
    rcases pc_goto hu with ⟨-, hc⟩ | ⟨-, hu'⟩
    · cases hc
    · exact h.matched u ticket hu'
  · intro u idx hu
    obtain ⟨hidx, hslots, hlt⟩ := h.releasing u idx ((hpc rfl fun _ hk => by cases hk).mp hu)
    refine ⟨hidx, hslots, fun v ticket hv => ?_⟩
    rcases pc_goto hv with ⟨-, hc⟩ | ⟨-, hv'⟩
    · cases hc
    · exact hlt v ticket hv'
  · intro hnone
    exact h.handed fun u idx hu => hnone u idx ((hpc rfl fun _ hk => by cases hk).mpr hu)
  · intro hnone
    rw [hentered, hdrawn, List.take_append_of_le_length (by rw [hlen]; exact hnext)]
    exact h.free fun u hu => hnone u ((hpc rfl fun _ hk => by cases hk).mpr hu)
  · intro u hu
    have hu' := (hpc rfl fun _ hk => by cases hk).mp hu
    have hlt := h.lt_head (.inr ⟨hu', rfl⟩)
    rw [hentered, hdrawn]
    show _ = (drawn tr ++ _).take (s.next + 1)
    rw [List.take_append_of_le_length (by rw [hlen]; exact hlt)]
    exact h.held u hu'

/-- The owner of the ticket `_next` enters. -/
theorem Inv.enter (h : Inv tr s) (hc : s.pc t = .spinning s.next) (hnone : ∀ u, ¬ Critical s u) :
    Inv (tr ++ [.entered t s.next]) (s.goto t .holding) := by
  have hdrawn : drawn (tr ++ [.entered t s.next]) = drawn tr := by
    rw [drawn_append]
    exact List.append_nil _
  have howns : ∀ u ticket, Owns (s.goto t .holding) u ticket ↔ Owns s u ticket := by
    intro u ticket
    by_cases hu : u = t
    · subst hu
      unfold Owns
      rw [pc_goto_self, hc]
      simp [State.goto, eq_comm]
    · unfold Owns
      rw [pc_goto_of_ne hu]
      rfl
  have hquiet : ∀ u idx, (s.goto t .holding).pc u ≠ .releasing idx := by
    intro u idx hu
    rcases pc_goto hu with ⟨-, hc'⟩ | ⟨-, hu'⟩
    · cases hc'
    · exact hnone u (.inr ⟨idx, hu'⟩)
  have hself : ∀ u, Critical (s.goto t .holding) u → u = t := by
    intro u hu
    rcases hu with hu | ⟨idx, hu⟩
    · rcases pc_goto hu with ⟨hut, -⟩ | ⟨-, hu'⟩
      · exact hut
      · exact absurd (.inl hu') (hnone u)
    · exact absurd hu (hquiet u idx)
  refine ⟨by rw [hdrawn]; exact h.tickets, h.next_le, ?_, ?_, ?_, h.slots, ?_, ?_, ?_, ?_, ?_⟩
  · intro u ticket ho
    rw [hdrawn]
    exact h.owner u ticket ((howns u ticket).mp ho)
  · intro ticket hle hlt
    obtain ⟨u, ho⟩ := h.covered ticket hle hlt
    exact ⟨u, (howns u ticket).mpr ho⟩
  · intro u v hu hv
    exact (hself u hu).trans (hself v hv).symm
  · intro u ticket hu
    rcases pc_goto hu with ⟨-, hc'⟩ | ⟨-, hu'⟩
    · cases hc'
    · exact h.matched u ticket hu'
  · intro u idx hu
    exact absurd hu (hquiet u idx)
  · intro _
    exact h.handed fun u idx hu => hnone u (.inr ⟨idx, hu⟩)
  · intro hfree
    exact absurd pc_goto_self (hfree t)
  · intro u _
    have hfree := h.free fun v hv => hnone v (.inl hv)
    rw [hdrawn, entered_append, hfree, List.take_add_one]
    show _ = _ ++ ((drawn tr)[s.next]?).toList
    rw [(h.owner t s.next (.inl hc)).2]
    rfl

/-- The holder increments `_next`. -/
theorem Inv.unlockNext (h : Inv tr s) (hc : s.pc t = .holding) :
    Inv tr { s.goto t (.releasing (slot size (s.next + 1))) with next := s.next + 1 } := by
  have hown : Owns s t s.next := .inr ⟨hc, rfl⟩
  have hlt := h.lt_head hown
  have hothers : ∀ u, u ≠ t → ¬ Critical s u := fun u hu hcu =>
    hu (h.critical u t hcu (.inl hc))
  have hfree : ∀ u, (s.goto t (.releasing (slot size (s.next + 1)))).pc u ≠ .holding := by
    intro u hu
    rcases pc_goto hu with ⟨-, hc'⟩ | ⟨hut, hu'⟩
    · cases hc'
    · exact hothers u hut (.inl hu')
  have hself : ∀ u, Critical { s.goto t (.releasing (slot size (s.next + 1))) with
      next := s.next + 1 } u → u = t := by
    intro u hu
    by_contra hut
    rcases hu with hu | ⟨idx, hu⟩
    · exact hfree u hu
    · rcases pc_goto hu with ⟨hut', -⟩ | ⟨-, hu'⟩
      · exact hut hut'
      · exact hothers u hut (.inr ⟨idx, hu'⟩)
  refine ⟨h.tickets, hlt, ?_, ?_, ?_, fun i => Nat.le_succ_of_le (h.slots i), ?_, ?_, ?_, ?_, ?_⟩
  · intro u ticket ho
    rcases ho with hu | ⟨hu, -⟩
    · rcases pc_goto hu with ⟨-, hc'⟩ | ⟨hut, hu'⟩
      · cases hc'
      · obtain ⟨hle, hget⟩ := h.owner u ticket (.inl hu')
        refine ⟨?_, hget⟩
        -- the ticket `_next` was that of the holder
        have hne : ticket ≠ s.next := by
          rintro rfl
          exact hut (h.owner_unique (.inl hu') hown)
        show s.next + 1 ≤ ticket
        omega
    · exact absurd hu (hfree u)
  · intro ticket hle hlt'
    have hle' : s.next + 1 ≤ ticket := hle
    obtain ⟨u, ho⟩ := h.covered ticket (by omega) hlt'
    rcases ho with hu | ⟨-, heq⟩
    · exact ⟨u, .inl (update_stay hu (by simp [hc]))⟩
    · omega
  · intro u v hu hv
    exact (hself u hu).trans (hself v hv).symm
  · intro u ticket hu
    rcases pc_goto hu with ⟨-, hc'⟩ | ⟨-, hu'⟩
    · cases hc'
    · exact Nat.le_succ_of_le (h.matched u ticket hu')
  · intro u idx hu
    refine ⟨?_, fun i => Nat.lt_succ_of_le (h.slots i), fun v ticket hv => ?_⟩
    · rcases pc_goto hu with ⟨-, hc'⟩ | ⟨hut, hu'⟩
      · exact (Pc.releasing.inj hc').symm
      · exact absurd (.inr ⟨idx, hu'⟩) (hothers u hut)
    · rcases pc_goto hv with ⟨-, hc'⟩ | ⟨-, hv'⟩
      · cases hc'
      · exact Nat.lt_succ_of_le (h.matched v ticket hv')
  · intro hnone
    exact absurd pc_goto_self (hnone t _)
  · intro _
    exact h.held t hc
  · intro u hu
    exact absurd hu (hfree u)

/-- The holder writes the next ticket into its slot. -/
theorem Inv.unlockStore (h : Inv tr s) {idx : Fin size} (hc : s.pc t = .releasing idx) :
    Inv (tr ++ [.released t])
      { s.goto t .idle with buffer := Function.update s.buffer idx s.next } := by
  have hdrawn : drawn (tr ++ [.released t]) = drawn tr := by
    rw [drawn_append]
    exact List.append_nil _
  have hentered : entered (tr ++ [.released t]) = entered tr := by
    rw [entered_append]
    exact List.append_nil _
  obtain ⟨rfl, hslots, hmatched⟩ := h.releasing t idx hc
  have hothers : ∀ u, u ≠ t → ¬ Critical s u := fun u hu hcu =>
    hu (h.critical u t hcu (.inr ⟨_, hc⟩))
  have hheld : ∀ u, s.pc u ≠ .holding := by
    intro u hu
    by_cases hut : u = t
    · subst hut
      rw [hc] at hu
      cases hu
    · exact hothers u hut (.inl hu)
  have hnone : ∀ u, ¬ Critical (s.goto t .idle) u := by
    intro u hu
    rcases hu with hu | ⟨idx, hu⟩
    · rcases pc_goto hu with ⟨-, hc'⟩ | ⟨hut, hu'⟩
      · cases hc'
      · exact hothers u hut (.inl hu')
    · rcases pc_goto hu with ⟨-, hc'⟩ | ⟨hut, hu'⟩
      · cases hc'
      · exact hothers u hut (.inr ⟨idx, hu'⟩)
  refine ⟨by rw [hdrawn]; exact h.tickets, h.next_le, ?_, ?_, ?_, ?_, ?_, ?_, ?_, ?_, ?_⟩
  · intro u ticket ho
    rw [hdrawn]
    rcases ho with hu | ⟨hu, -⟩
    · rcases pc_goto hu with ⟨-, hc'⟩ | ⟨-, hu'⟩
      · cases hc'
      · exact h.owner u ticket (.inl hu')
    · exact absurd (.inl hu) (hnone u)
  · intro ticket hle hlt
    obtain ⟨u, ho⟩ := h.covered ticket hle hlt
    rcases ho with hu | ⟨hu, -⟩
    · exact ⟨u, .inl (update_stay hu (by simp [hc]))⟩
    · exact absurd hu (hheld u)
  · intro u v hu
    exact absurd hu (hnone u)
  · intro i
    show Function.update s.buffer _ s.next i ≤ s.next
    by_cases hi : i = slot size s.next
    · subst hi
      exact Nat.le_of_eq (Function.update_self ..)
    · rw [Function.update_of_ne hi]
      exact h.slots i
  · intro u ticket hu
    rcases pc_goto hu with ⟨-, hc'⟩ | ⟨-, hu'⟩
    · cases hc'
    · exact h.matched u ticket hu'
  · intro u idx hu
    exact absurd (.inr ⟨idx, hu⟩) (hnone u)
  · intro _
    exact Function.update_self ..
  · intro _
    rw [hentered, hdrawn]
    exact h.free hheld
  · intro u hu
    exact absurd (.inl hu) (hnone u)

/-- `trylock` draws the ticket `_next` and enters with it. -/
theorem Inv.tryTake (h : Inv tr s) (hc : s.pc t = .matched s.head) :
    Inv (tr ++ [.drawn t s.head, .entered t s.head])
      { s.goto t .holding with head := s.head + 1 } := by
  obtain ⟨hnext, hnone⟩ := h.matched_free hc
  have hdraw := h.draw (t := t) (by rw [hc]; rfl)
  generalize hs₁ : ({ s.goto t (.spinning s.head) with head := s.head + 1 } : State T size) = s₁
    at hdraw
  have hnext₁ : s₁.next = s.head := by
    subst hs₁
    exact hnext
  have hc₁ : s₁.pc t = .spinning s₁.next := by
    rw [hnext₁]
    subst hs₁
    exact pc_goto_self
  have hnone₁ : ∀ u, ¬ Critical s₁ u := by
    subst hs₁
    rintro u (hu | ⟨idx, hu⟩)
    · rcases pc_goto hu with ⟨-, hc'⟩ | ⟨-, hu'⟩
      · cases hc'
      · exact hnone u (.inl hu')
    · rcases pc_goto hu with ⟨-, hc'⟩ | ⟨-, hu'⟩
      · cases hc'
      · exact hnone u (.inr ⟨idx, hu'⟩)
  have henter := hdraw.enter hc₁ hnone₁
  have hgoto : s₁.goto t .holding = { s.goto t .holding with head := s.head + 1 } := by
    subst hs₁
    unfold State.goto
    simp only [Function.update_idem]
  rw [hgoto, hnext₁, List.append_assoc] at henter
  exact henter

theorem succSize_eq {n : Nat} (h : n + 1 < 2 ^ 64) : succSize n = n + 1 := Nat.mod_eq_of_lt h

/-- Every step keeps the invariant, as long as `_head` does not wrap around. -/
theorem inv_step (h : Inv tr s) {es : List (Event T)} {s' : State T size} (hs : Step s es s')
    (hfew : (drawn (tr ++ es)).length < 2 ^ 64) : Inv (tr ++ es) s' := by
  have hlen := h.length_drawn
  rw [drawn_append, List.length_append, hlen] at hfew
  cases hs with
  | @draw t hc =>
    rw [succSize_eq hfew]
    exact h.draw (by rw [hc]; rfl)
  | spin =>
    rw [List.append_nil]
    exact h
  | enter hc hslot =>
    obtain ⟨rfl, hnone⟩ := h.shown hc hslot
    exact h.enter hc hnone
  | tryLoad hc =>
    rw [List.append_nil]
    exact h.outside (by rw [hc]; rfl) rfl fun _ hm => by cases hm
  | tryBusy hc =>
    rw [List.append_nil]
    exact h.outside (by rw [hc]; rfl) rfl fun _ hm => by cases hm
  | @tryMatch t head hc hslot =>
    rw [List.append_nil]
    refine h.outside (by rw [hc]; rfl) rfl fun ticket hm => ?_
    cases hm
    rw [← hslot]
    exact ⟨h.slots _, fun u idx hu => (h.releasing u idx hu).2.1 _⟩
  | @tryTake t head hc hhead =>
    subst hhead
    have hone : s.head + 1 < 2 ^ 64 := hfew
    rw [succSize_eq hone]
    exact h.tryTake hc
  | tryLost hc =>
    rw [List.append_nil]
    exact h.outside (by rw [hc]; rfl) rfl fun _ hm => by cases hm
  | @unlockNext t hc =>
    have hlt := h.lt_head (.inr ⟨hc, rfl⟩)
    rw [List.append_nil, succSize_eq (by omega)]
    exact h.unlockNext hc
  | unlockStore hc => exact h.unlockStore hc

/-- The invariant holds after every run that draws fewer than `2 ^ 64` tickets. -/
theorem inv_reach (hr : Reach (machine T size) tr s) (hfew : (drawn tr).length < 2 ^ 64) :
    Inv tr s := by
  refine Reach.invariant (I := fun tr s => (drawn tr).length < 2 ^ 64 → Inv tr s) ?_ ?_ hr hfew
  · rintro s rfl _
    exact inv_initial
  · intro tr es s s' _ ih hs hfew
    refine inv_step (ih ?_) hs hfew
    rw [drawn_append, List.length_append] at hfew
    omega

end Invariant

/-! ## The lock -/

section Lock

variable {T : Type} {size : Nat} [NeZero size] {tr : List (Event T)} {s : State T size}

/-- The lock was given to the threads in the order in which they drew their tickets. -/
theorem Inv.entered_in_order (h : Inv tr s) : entered tr <+: drawn tr := by
  by_cases hheld : ∃ t, s.pc t = .holding
  · obtain ⟨t, ht⟩ := hheld
    rw [h.held t ht]
    exact List.take_prefix ..
  · rw [h.free fun t ht => hheld ⟨t, ht⟩]
    exact List.take_prefix ..

/-- The oldest waiting ticket. -/
theorem Inv.oldest (h : Inv tr s) (hnone : ∀ t, ¬ Critical s t) {t : T} {ticket : Nat}
    (hc : s.pc t = .spinning ticket) (hold : ∀ u k, s.pc u = .spinning k → ticket ≤ k) :
    ticket = s.next := by
  have ho : Owns s t ticket := .inl hc
  have hle := (h.owner t ticket ho).1
  have hlt := h.lt_head ho
  obtain ⟨u, hu⟩ := h.covered s.next (Nat.le_refl _) (by omega)
  rcases hu with hu | ⟨hu, -⟩
  · have := hold u s.next hu
    omega
  · exact absurd (.inl hu) (hnone u)

variable [DecidableEq T]

/-- A ticket that is shown in its slot stays there until its owner has read it. -/
theorem Inv.kept (h : Inv tr s) {t : T} {ticket : Nat} (hc : s.pc t = .spinning ticket)
    (hslot : s.buffer (slot size ticket) = ticket) {es : List (Event T)} {s' : State T size}
    (hs : Step s es s') : s'.buffer (slot size ticket) = ticket := by
  cases hs with
  | draw | spin | enter | tryLoad | tryBusy | tryMatch | tryTake | tryLost | unlockNext =>
    exact hslot
  | @unlockStore u idx hu => exact absurd (.inr ⟨idx, hu⟩) ((h.shown hc hslot).2 u)

/-- **The spin lock is fair.** At most one thread is between the return of `lock` or `trylock`
and the end of `unlock`. The threads get the lock in the order in which they drew their
tickets, 0, 1, 2, …. While nobody is inside, the slot of `_next` holds `_next`, so that the
oldest waiting ticket can enter, and what is written for a waiting ticket stays until it has
been read. -/
theorem spinLock_fair (T : Type) [DecidableEq T] (size : Nat) [NeZero size]
    {tr : List (Event T)} {s : State T size} (hr : Reach (machine T size) tr s)
    (hfew : (drawn tr).length < 2 ^ 64) :
    (∀ t u, Critical s t → Critical s u → t = u) ∧
    (entered tr <+: drawn tr ∧ (drawn tr).map Prod.snd = List.range (drawn tr).length ∧
      (entered tr).map Prod.snd = List.range (entered tr).length) ∧
    ((∀ t, ¬ Critical s t) → s.buffer (slot size s.next) = s.next ∧
      ∀ t ticket, s.pc t = .spinning ticket → (∀ u k, s.pc u = .spinning k → ticket ≤ k) →
        ticket = s.next ∧ ∃ s', Step s [.entered t ticket] s') ∧
    ∀ t ticket, s.pc t = .spinning ticket → s.buffer (slot size ticket) = ticket →
      ∀ es s', Step s es s' → s'.buffer (slot size ticket) = ticket := by
  have h := inv_reach hr hfew
  have horder := h.entered_in_order
  have htickets : (drawn tr).map Prod.snd = List.range (drawn tr).length := by
    rw [h.length_drawn]
    exact h.tickets
  refine ⟨h.critical, ⟨horder, htickets, ?_⟩, fun hnone => ?_, fun t ticket hc hslot es s' hs =>
    h.kept hc hslot hs⟩
  · rw [List.prefix_iff_eq_take.mp horder, List.map_take, htickets, List.take_range]
    rw [List.length_take, Nat.min_eq_left horder.length_le]
  · have hslot := h.handed fun t idx ht => hnone t (.inr ⟨idx, ht⟩)
    refine ⟨hslot, fun t ticket hc hold => ?_⟩
    obtain rfl := h.oldest hnone hc hold
    exact ⟨rfl, _, .enter hc hslot⟩

/-- Three threads and two slots: thread 0 has the lock, thread 1 waits with ticket 1 and
thread 2 with ticket 2, on the slot of thread 0. -/
theorem spinLock_fair_three :
    ∃ (tr : List (Event Nat)) (s : State Nat 2), Reach (machine Nat 2) tr s ∧
      s.pc 0 = .holding ∧ s.pc 2 = .spinning 2 ∧ slot 2 2 = slot 2 0 ∧
      entered tr <+: drawn tr ∧ drawn tr = [(0, 0), (1, 1), (2, 2)] := by
  have h₀ : Reach (machine Nat 2) [] .initial := Reach.init rfl
  have h₁ := h₀.step (Step.draw (t := 0) rfl)
  have h₂ := h₁.step (Step.draw (t := 1) rfl)
  have h₃ := h₂.step (Step.draw (t := 2) rfl)
  have h₄ := h₃.step (Step.enter (t := 0) rfl rfl)
  obtain ⟨-, ⟨horder, -, -⟩, -⟩ := spinLock_fair Nat 2 h₄ (by decide)
  exact ⟨_, _, h₄, rfl, rfl, rfl, horder, rfl⟩

/-! ## The lock as a variable -/

/-- What is seen of the lock from outside. -/
inductive Usage (T : Type) where
  | acquired (t : T)
  | released (t : T)
deriving DecidableEq, Repr

/-- A mutex is a variable that names its holder. -/
inductive MutexStep : Option T → List (Usage T) → Option T → Prop where
  | acquire {t : T} : MutexStep none [.acquired t] (some t)
  | release {t : T} : MutexStep (some t) [.released t] none

variable (T) in
def mutex : System (Option T) (Usage T) where
  init := (· = none)
  step := MutexStep

def Event.usage : Event T → Option (Usage T)
  | .entered t _ => some (.acquired t)
  | .released t => some (.released t)
  | .drawn .. => none

/-- What a step does to the holder. -/
theorem usage_step (h : Inv tr s) {es : List (Event T)} {s' : State T size} (hs : Step s es s') :
    (es.filterMap Event.usage = [] ∧ ∀ u, Critical s' u ↔ Critical s u) ∨
    (∃ t, es.filterMap Event.usage = [.acquired t] ∧ (∀ u, ¬ Critical s u) ∧
      ∀ u, Critical s' u ↔ u = t) ∨
    ∃ t, es.filterMap Event.usage = [.released t] ∧ Critical s t ∧ ∀ u, ¬ Critical s' u := by
  -- the thread stays outside, or inside
  have same : ∀ {t : T} {c : Pc size}, (c.inside ↔ (s.pc t).inside) →
      ∀ u, Critical (s.goto t c) u ↔ Critical s u := by
    intro t c hc u
    by_cases hu : u = t
    · subst hu
      rw [critical_iff, critical_iff, pc_goto_self]
      exact hc
    · exact critical_goto_of_ne hu
  -- it gets in
  have only : ∀ {t : T}, (∀ u, ¬ Critical s u) →
      ∀ u, Critical (s.goto t .holding) u ↔ u = t := by
    intro t hnone u
    by_cases hu : u = t
    · subst hu
      exact ⟨fun _ => rfl, fun _ => .inl pc_goto_self⟩
    · rw [critical_goto_of_ne hu]
      exact ⟨fun hcu => absurd hcu (hnone u), fun hut => absurd hut hu⟩
  cases hs with
  | draw hc | tryLoad hc | tryBusy hc | tryMatch hc | tryLost hc =>
    exact .inl ⟨rfl, same (by rw [hc]; exact Iff.rfl)⟩
  | spin => exact .inl ⟨rfl, fun _ => Iff.rfl⟩
  | enter hc hslot =>
    obtain ⟨-, hnone⟩ := h.shown hc hslot
    exact .inr (.inl ⟨_, rfl, hnone, only hnone⟩)
  | tryTake hc hhead =>
    subst hhead
    obtain ⟨-, hnone⟩ := h.matched_free hc
    exact .inr (.inl ⟨_, rfl, hnone, only hnone⟩)
  | unlockNext hc => exact .inl ⟨rfl, same (by rw [hc]; exact Iff.rfl)⟩
  | @unlockStore t idx hc =>
    have hcrit : Critical s t := .inr ⟨idx, hc⟩
    refine .inr (.inr ⟨t, rfl, hcrit, fun u hu => ?_⟩)
    by_cases hut : u = t
    · subst hut
      have hidle : ¬ Critical (s.goto u .idle) u := by
        rw [critical_iff, pc_goto_self]
        exact Bool.false_ne_true
      exact hidle hu
    · exact hut (h.critical u t ((critical_goto_of_ne hut).mp hu) hcrit)

/-- **The lock is a mutex**: every run that draws fewer than `2 ^ 64` tickets acquires and
releases as a mutex does, and the holder of the mutex is the thread that is inside. -/
theorem refines_mutex (hr : Reach (machine T size) tr s) (hfew : (drawn tr).length < 2 ^ 64) :
    ∃ holder, Reach (mutex T) (tr.filterMap Event.usage) holder ∧
      ∀ t, Critical s t ↔ holder = some t := by
  refine Reach.invariant (I := fun tr s => (drawn tr).length < 2 ^ 64 →
    ∃ holder, Reach (mutex T) (tr.filterMap Event.usage) holder ∧
      ∀ t, Critical s t ↔ holder = some t) ?_ ?_ hr hfew
  · rintro s rfl _
    refine ⟨none, Reach.init rfl, fun t => ?_⟩
    rw [critical_iff]
    exact ⟨fun h => (by cases h), fun h => (by cases h)⟩
  · intro tr es s s' hr ih hs hfew
    have hfew' : (drawn tr).length < 2 ^ 64 := by
      rw [drawn_append, List.length_append] at hfew
      omega
    obtain ⟨holder, hmutex, hcrit⟩ := ih hfew'
    rw [List.filterMap_append]
    rcases usage_step (inv_reach hr hfew') hs with ⟨hes, hsame⟩ | ⟨t, hes, hnone, hin⟩ |
      ⟨t, hes, ht, hout⟩
    · rw [hes, List.append_nil]
      exact ⟨holder, hmutex, fun u => (hsame u).trans (hcrit u)⟩
    · have hfree : holder = none := by
        cases hholder : holder with
        | none => rfl
        | some u => exact absurd ((hcrit u).mpr hholder) (hnone u)
      subst hfree
      refine ⟨some t, ?_, fun u => ?_⟩
      · rw [hes]
        exact hmutex.step MutexStep.acquire
      · rw [hin u, Option.some.injEq, eq_comm]
    · obtain rfl := (hcrit t).mp ht
      refine ⟨none, ?_, fun u => ?_⟩
      · rw [hes]
        exact hmutex.step MutexStep.release
      · exact ⟨fun hu => absurd hu (hout u), fun hu => by cases hu⟩

/-- Thread 1 waits until thread 0 has given the lock back. -/
theorem refines_mutex_two :
    ∃ (tr : List (Event Nat)) (s : State Nat 2), Reach (machine Nat 2) tr s ∧
      tr.filterMap Event.usage = [.acquired 0, .released 0, .acquired 1] ∧
      ∃ holder, Reach (mutex Nat) (tr.filterMap Event.usage) holder ∧
        ∀ t, Critical s t ↔ holder = some t := by
  have h₀ : Reach (machine Nat 2) [] .initial := Reach.init rfl
  have h₁ := h₀.step (Step.draw (t := 0) rfl)
  have h₂ := h₁.step (Step.draw (t := 1) rfl)
  have h₃ := h₂.step (Step.enter (t := 0) rfl rfl)
  have h₄ := h₃.step (Step.unlockNext (t := 0) rfl)
  have h₅ := h₄.step (Step.unlockStore (t := 0) rfl)
  have h₆ := h₅.step (Step.enter (t := 1) rfl rfl)
  exact ⟨_, _, h₆, rfl, refines_mutex h₆ (by decide)⟩

/-! ## The lock of a program -/

omit [DecidableEq T] [NeZero size] in
def Pc.phase : Pc size → Phase
  | .idle => .outside
  | .spinning _ | .tried _ | .matched _ => .entering
  | .holding => .inside
  | .releasing _ => .leaving

variable (T size) in
/-- The lock in the hands of a program that calls `lock` and `unlock`; the library has no
call of `trylock`. -/
def lock : Lts.Lock T (State T size) (Event T) where
  init := (· = .initial)
  step t s es s' := Step s es s' ∧ (∀ u, u ≠ t → s'.pc u = s.pc u) ∧
    ∀ head, s'.pc t ≠ .tried head
  phase s t := (s.pc t).phase
  frame hs hu := congrArg Pc.phase (hs.2.1 _ hu)

theorem lock_step {t : T} {c : Pc size} {es : List (Event T)} {s' : State T size}
    (hs : Step s es s') (hpc : s'.pc = (s.goto t c).pc) (hc : ∀ head, c ≠ .tried head) :
    (lock T size).step t s es s' :=
  ⟨hs, fun _ hu => (congrFun hpc _).trans (pc_goto_of_ne hu),
    fun head => by rw [hpc, pc_goto_self]; exact hc head⟩

/-- What a thread does that is not in `trylock`. -/
theorem lock_cases {t : T} {es : List (Event T)} {s' : State T size}
    (hs : (lock T size).step t s es s')
    (hc : ∀ head, s.pc t ≠ .tried head ∧ s.pc t ≠ .matched head) :
    s' = s ∨ (s.pc t = .idle ∧ s'.pc t = .spinning s.head) ∨
    (∃ head, s.pc t = .spinning head ∧ s'.pc t = .holding) ∨
    (s.pc t = .holding ∧ ∃ idx, s'.pc t = .releasing idx) ∨
    ∃ idx, s.pc t = .releasing idx ∧ s'.pc t = .idle := by
  obtain ⟨hs, hothers, htried⟩ := hs
  -- the thread that moves is `t`
  have moved : ∀ {u : T} {c : Pc size}, s'.pc = (s.goto u c).pc → s.pc u ≠ c →
      u = t ∧ s'.pc u = c := by
    intro u c hpc hne
    have hu : s'.pc u = c := by rw [hpc, pc_goto_self]
    refine ⟨?_, hu⟩
    by_contra hut
    exact hne ((hothers u hut).symm.trans hu)
  cases hs with
  | spin => exact .inl rfl
  | draw hidle =>
    obtain ⟨rfl, hnew⟩ := moved rfl (by simp [hidle])
    exact .inr (.inl ⟨hidle, hnew⟩)
  | enter hspin =>
    obtain ⟨rfl, hnew⟩ := moved rfl (by simp [hspin])
    exact .inr (.inr (.inl ⟨_, hspin, hnew⟩))
  | tryLoad hidle =>
    obtain ⟨rfl, hnew⟩ := moved rfl (by simp [hidle])
    exact absurd hnew (htried _)
  | tryBusy htry | tryMatch htry =>
    obtain ⟨rfl, -⟩ := moved rfl (by simp [htry])
    exact absurd htry (hc _).1
  | tryTake htry | tryLost htry =>
    obtain ⟨rfl, -⟩ := moved rfl (by simp [htry])
    exact absurd htry (hc _).2
  | unlockNext hhold =>
    obtain ⟨rfl, hnew⟩ := moved rfl (by simp [hhold])
    exact .inr (.inr (.inr (.inl ⟨hhold, _, hnew⟩)))
  | unlockStore hrel =>
    obtain ⟨rfl, hnew⟩ := moved rfl (by simp [hrel])
    exact .inr (.inr (.inr (.inr ⟨_, hrel, hnew⟩)))

/-- The program makes the lock do what it can do. -/
theorem lock_machine (hr : Reach (lock T size).system tr s) : Reach (machine T size) tr s :=
  hr.invariant (fun _ hi => .init hi) fun _ _ _ _ _ ih ⟨_, hs, _⟩ => ih.step hs

omit [NeZero size] in
theorem phase_inside {c : Pc size} (hc : c.phase = .inside) : c = .holding := by
  cases c <;> first | rfl | cases hc

/-- The lock lets one thread in at a time. -/
theorem excludes : (lock T size).Excludes fun tr => (drawn tr).length < 2 ^ 64 where
  few_of_append hfew := by
    rw [drawn_append, List.length_append] at hfew
    omega
  unique hr hfew ht hu := (inv_reach (lock_machine hr) hfew).critical _ _
    (.inl (phase_inside ht)) (.inl (phase_inside hu))

/-- The lock is entered by the thread that gets inside. -/
theorem lock_entered {t : T} {es : List (Event T)} {s' : State T size}
    (hs : (lock T size).step t s es s') :
    ((s'.pc t).phase = .inside → (s.pc t).phase ≠ .inside → (entered es).map Prod.fst = [t]) ∧
    (((s'.pc t).phase = .inside → (s.pc t).phase = .inside) → entered es = []) := by
  obtain ⟨hs, hothers, -⟩ := hs
  -- nobody gets in
  have quiet : ∀ {u : T} {c : Pc size}, s'.pc = (s.goto u c).pc → c.phase ≠ .inside →
      entered es = [] → ((s'.pc t).phase = .inside → (s.pc t).phase ≠ .inside →
        (entered es).map Prod.fst = [t]) ∧
      (((s'.pc t).phase = .inside → (s.pc t).phase = .inside) → entered es = []) := by
    intro u c hpc hc hes
    refine ⟨fun hin hout => absurd hin ?_, fun _ => hes⟩
    rw [hpc]
    rcases pc_goto (s := s) (t := u) (u := t) (c := c) rfl with ⟨rfl, hself⟩ | ⟨hne, -⟩
    · rwa [← hself]
    · rwa [pc_goto_of_ne hne]
  -- thread `u` gets in, and is the thread that moves
  have gets : ∀ {u : T}, s'.pc = (s.goto u .holding).pc → s.pc u ≠ .holding →
      (entered es).map Prod.fst = [u] → ((s'.pc t).phase = .inside → (s.pc t).phase ≠ .inside →
        (entered es).map Prod.fst = [t]) ∧
      (((s'.pc t).phase = .inside → (s.pc t).phase = .inside) → entered es = []) := by
    intro u hpc hne hes
    obtain rfl : u = t := by
      by_contra hut
      refine hne ((hothers u hut).symm.trans ?_)
      rw [hpc, pc_goto_self]
    refine ⟨fun _ _ => hes, fun hsame => absurd (phase_inside (hsame ?_)) hne⟩
    rw [hpc, pc_goto_self]
    rfl
  cases hs with
  | draw | tryLoad | tryBusy | tryMatch | tryLost | unlockNext | unlockStore =>
    exact quiet rfl (by simp [Pc.phase]) rfl
  | spin => exact ⟨fun hin hout => absurd hin hout, fun _ => rfl⟩
  | enter hc | tryTake hc => exact gets rfl (by simp [hc]) rfl

section Program

variable {σ ε : Type} {P : Client T σ ε} {tr : List (Event T ⊕ ε)} {k : State T size} {p p' : σ}

/-- A thread calls `lock`. -/
theorem over_draw (hr : Reach (P.behind (lock T size)) tr (k, p)) {t : T} (hc : k.pc t = .idle)
    (hwants : P.wants p t) :
    Reach (P.behind (lock T size)) (tr ++ [.inl (.drawn t k.head)])
      ({ k.goto t (.spinning k.head) with head := succSize k.head }, p) := by
  have hpc : (k.goto t (.spinning k.head)).pc t = .spinning k.head := pc_goto_self
  refine hr.step (.lock (lock_step (.draw hc) rfl (by simp)) (fun hin => ?_) (fun _ _ => hwants)
    fun hin => ?_)
  · cases (phase_inside hin).symm.trans hpc
  · cases (phase_inside hin).symm.trans hc

/-- `lock` returns. -/
theorem over_enter (hr : Reach (P.behind (lock T size)) tr (k, p)) {t : T} {head : Nat}
    {es : List ε} (hc : k.pc t = .spinning head) (hslot : k.buffer (slot size head) = head)
    (henter : P.enter t p es p') :
    Reach (P.behind (lock T size)) (tr ++ (.inl (.entered t head) :: es.map .inr))
      (k.goto t .holding, p') :=
  hr.step (.enter (lock_step (.enter hc hslot) rfl (by simp))
    (fun hin => by cases (phase_inside hin).symm.trans hc) (congrArg Pc.phase pc_goto_self) henter)

/-- `unlock`. -/
theorem over_unlock (hr : Reach (P.behind (lock T size)) tr (k, p)) {t : T} (hc : k.pc t = .holding)
    (hfree : ¬ P.locked p t) :
    ∃ k', Reach (P.behind (lock T size)) (tr ++ [.inl (.released t)]) (k', p) ∧
      k'.pc = (k.goto t .idle).pc ∧ k'.next = succSize k.next ∧ k'.head = k.head ∧
      k'.buffer = Function.update k.buffer (slot size (succSize k.next)) (succSize k.next) := by
  have hpc : (k.goto t (.releasing (slot size (succSize k.next)))).pc t = .releasing _ :=
    pc_goto_self
  have h₁ := hr.step (.lock (lock_step (.unlockNext hc) rfl (by simp))
    (fun hin => by cases (phase_inside hin).symm.trans hpc)
    (fun hout => by cases (congrArg Pc.phase hc).symm.trans hout) fun _ _ => hfree)
  have h₂ := h₁.step (.lock (lock_step (.unlockStore hpc) rfl (by simp))
    (fun hin => by cases (phase_inside hin).symm.trans pc_goto_self)
    (fun hout => by cases (congrArg Pc.phase hpc).symm.trans hout)
    fun hin => by cases (congrArg Pc.phase hpc).symm.trans hin)
  rw [List.append_assoc] at h₂
  exact ⟨_, h₂, by simp [State.goto], rfl, rfl, rfl⟩

end Program

end Lock

end SpinLock

end Tagaspi
