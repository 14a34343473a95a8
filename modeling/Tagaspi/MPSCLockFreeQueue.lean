import Mathlib.Algebra.Group.Defs
import Mathlib.Data.Nat.ModEq
import Tagaspi.Gaspi
import Tagaspi.Lib.Containers
import Tagaspi.SpinLock

/-!
# The lock-free queue (`MPSCLockFreeQueue.hpp`)

A bounded queue for any number of producers and one consumer, over an array of
`_capacity` slots in which 0 marks an empty slot. A producer first reserves room in
`_count`, and backs off if there is none; then it draws a ticket from `_head`; then it
exchanges its object into the slot of the ticket. The consumer takes an object out of the
slot at `_tail`, moves `_tail` and gives the room back.

- `Step`, `machine`: the atomic accesses of the producers and the consumer.
- `Counted`, `Stored`, `Served`: the invariant. `_count` is what the calls have reserved,
  a ticket is with its producer or shows its object, and the consumer follows the tickets.
- `queue_keeps_order`: no slot is written twice, nothing is lost or reordered, and a call
  that fails leaves no trace.
- `dequeue_misses`: an object whose producer is done is not overlooked.
- `refines_fifo`: seen from outside, the queue is a list of bounded length.
-/

namespace Tagaspi

open Lts Containers
open SpinLock (slot succSize)

namespace MPSCLockFreeQueue

/-- Where a producer stands in `enqueue`. -/
inductive Pc (α : Type) where
  | idle
  /-- `_count` was below `_capacity`: about to increment `_head`. -/
  | reserved (obj : α)
  /-- `_count` was not: about to back off. -/
  | full
  /-- About to exchange the object into the slot. -/
  | ticketed (obj : α) (head : Nat)

/-- Where the consumer stands in `dequeue`. -/
inductive Consumer (α : Type) where
  | idle
  /-- It has taken `ret` out of its slot. -/
  | taken (ret : α)
  /-- It has moved `_tail`. -/
  | advanced (ret : α)

/-- The queue and the calls under way. `size` is `_capacity`. -/
structure State (T α : Type) (size : Nat) where
  count : Nat
  head : Nat
  tail : Fin size
  buffer : Fin size → α
  pc : T → Pc α
  consumer : Consumer α

inductive Event (T α : Type) where
  /-- `t` calls `enqueue` and increments `_count`. -/
  | called (t : T) (obj : α)
  /-- `enqueue` returns `false`. -/
  | refused (t : T)
  | drawn (t : T) (obj : α) (head : Nat)
  /-- The exchange finds `rv`, and `enqueue` returns `true`. -/
  | stored (t : T) (obj rv : α)
  | taken (ret : α)
  /-- `dequeue` finds an empty slot and returns 0. -/
  | missed
  /-- `dequeue` finds `r` in `_count` and returns `ret`. -/
  | dequeued (ret : α) (r : Nat)

/-- `if (++_tail >= _capacity) _tail = 0`. The sum does not wrap, for the capacity is a
`size_t`. -/
def nextTail {size : Nat} [NeZero size] (tail : Fin size) : Fin size :=
  if h : tail.val + 1 < size then ⟨tail.val + 1, h⟩ else 0

section Machine

variable {T α : Type} [DecidableEq T] {size : Nat}

def State.goto (s : State T α size) (t : T) (c : Pc α) : State T α size :=
  { s with pc := Function.update s.pc t c }

theorem pc_goto_self {s : State T α size} {t : T} {c : Pc α} : (s.goto t c).pc t = c :=
  Function.update_self ..

theorem pc_goto {s : State T α size} {t u : T} {c c' : Pc α} (h : (s.goto t c).pc u = c') :
    (u = t ∧ c = c') ∨ (u ≠ t ∧ s.pc u = c') := update_cases h

variable [NeZero size] [Zero α]

/-- One atomic access of a producer or of the consumer. -/
inductive Step : State T α size → List (Event T α) → State T α size → Prop where
  -- enqueue
  | reserve {s : State T α size} {t : T} {obj : α} :
      s.pc t = .idle → obj ≠ 0 → s.count < size →
      Step s [.called t obj] { s.goto t (.reserved obj) with count := succSize s.count }
  | overflow {s : State T α size} {t : T} {obj : α} :
      s.pc t = .idle → obj ≠ 0 → size ≤ s.count →
      Step s [.called t obj] { s.goto t .full with count := succSize s.count }
  | backOff {s : State T α size} {t : T} :
      s.pc t = .full →
      Step s [.refused t] { s.goto t .idle with count := predSize s.count }
  | draw {s : State T α size} {t : T} {obj : α} :
      s.pc t = .reserved obj →
      Step s [.drawn t obj s.head]
        { s.goto t (.ticketed obj s.head) with head := succSize s.head }
  | store {s : State T α size} {t : T} {obj : α} {head : Nat} :
      s.pc t = .ticketed obj head →
      Step s [.stored t obj (s.buffer (slot size head))]
        { s.goto t .idle with buffer := Function.update s.buffer (slot size head) obj }
  -- dequeue
  | take {s : State T α size} {ret : α} :
      s.consumer = .idle → s.buffer s.tail = ret → ret ≠ 0 →
      Step s [.taken ret]
        { s with consumer := .taken ret, buffer := Function.update s.buffer s.tail 0 }
  | miss {s : State T α size} :
      s.consumer = .idle → s.buffer s.tail = 0 →
      Step s [.missed] { s with buffer := Function.update s.buffer s.tail 0 }
  | advance {s : State T α size} {ret : α} :
      s.consumer = .taken ret →
      Step s [] { s with consumer := .advanced ret, tail := nextTail s.tail }
  | giveBack {s : State T α size} {ret : α} :
      s.consumer = .advanced ret →
      Step s [.dequeued ret s.count] { s with consumer := .idle, count := predSize s.count }

/-- After the constructor. -/
def State.initial : State T α size where
  count := 0
  head := 0
  tail := 0
  buffer _ := 0
  pc _ := .idle
  consumer := .idle

variable (T α size) in
/-- The queue under the producers `T`. -/
def machine : System (State T α size) (Event T α) where
  init := (· = .initial)
  step := Step

end Machine

/-! ## The calls so far -/

/-- What a trace says about the calls. -/
structure History (α : Type) where
  /-- How often `enqueue` was called. -/
  called : Nat
  /-- How often it returned `false`. -/
  refused : Nat
  /-- The tickets and their objects, in the order in which they were drawn. -/
  drawn : List (Nat × α)
  /-- The objects that the consumer has taken out of their slots. -/
  taken : List α
  /-- The objects that `dequeue` has returned. -/
  dequeued : List α
deriving DecidableEq, Repr

section Calls

variable {T α : Type}

/-- The history after one more event. -/
def History.next (g : History α) : Event T α → History α
  | .called _ _ => { g with called := g.called + 1 }
  | .refused _ => { g with refused := g.refused + 1 }
  | .drawn _ obj head => { g with drawn := g.drawn ++ [(head, obj)] }
  | .taken ret => { g with taken := g.taken ++ [ret] }
  | .dequeued ret _ => { g with dequeued := g.dequeued ++ [ret] }
  | .stored _ _ _ | .missed => g

def history (tr : List (Event T α)) : History α := tr.foldl History.next ⟨0, 0, [], [], []⟩

theorem history_append (tr es : List (Event T α)) :
    history (tr ++ es) = es.foldl History.next (history tr) := List.foldl_append

/-- The calls are only ever counted up. -/
theorem called_le (g : History α) (es : List (Event T α)) :
    g.called ≤ (es.foldl History.next g).called := by
  induction es generalizing g with
  | nil => exact Nat.le_refl _
  | cons e es ih =>
    refine Nat.le_trans ?_ (ih (g.next e))
    cases e with
    | called t obj => exact Nat.le_succ _
    | _ => exact Nat.le_refl _

/-- The producer of an event. -/
def Event.thread : Event T α → Option T
  | .called t _ | .refused t | .drawn t _ _ | .stored t _ _ => some t
  | .taken _ | .missed | .dequeued _ _ => none

/-- `t` has called `enqueue` and has made no other step since. -/
def CalledLast (t : T) (tr : List (Event T α)) : Prop :=
  ∃ before obj since, tr = before ++ .called t obj :: since ∧ ∀ e ∈ since, e.thread ≠ some t

theorem CalledLast.append {t : T} {tr es : List (Event T α)} (h : CalledLast t tr)
    (hes : ∀ e ∈ es, e.thread ≠ some t) : CalledLast t (tr ++ es) := by
  obtain ⟨before, obj, since, rfl, hsince⟩ := h
  refine ⟨before, obj, since ++ es, by rw [List.append_assoc, List.cons_append], fun e he => ?_⟩
  rcases List.mem_append.mp he with he | he
  · exact hsince e he
  · exact hes e he

end Calls

/-! ## Slots -/

section Slots

variable {size : Nat} [NeZero size]

/-- Of `size` tickets in a row no two share a slot. -/
theorem slot_inj {base k k' : Nat} (hk : base ≤ k) (hk' : base ≤ k') (hlt : k < base + size)
    (hlt' : k' < base + size) (heq : slot size k = slot size k') : k = k' := by
  have hmod : k ≡ k' [MOD size] := congrArg Fin.val heq
  refine hmod.eq_of_abs_lt ?_
  rw [abs_lt]
  constructor
  · omega
  · omega

/-- The next `size - 1` tickets have other slots. -/
theorem slot_ne {k k' : Nat} (hlt : k < k') (hlt' : k' < k + size) :
    slot size k' ≠ slot size k := by
  intro heq
  have hk : k' = k := slot_inj (Nat.le_of_lt hlt) (Nat.le_refl k) hlt' (hlt.trans hlt') heq
  exact Nat.ne_of_gt hlt hk

/-- The consumer moves from slot to slot as the tickets do. -/
theorem nextTail_slot (k : Nat) : nextTail (slot size k) = slot size (k + 1) := by
  have hpos : 0 < size := Nat.pos_of_neZero size
  have hlt := Nat.mod_lt k hpos
  have hval : (slot size k).val = k % size := rfl
  have hmod : (slot size (k + 1)).val = (k % size + 1) % size := (Nat.mod_add_mod k size 1).symm
  unfold nextTail
  by_cases hroom : (slot size k).val + 1 < size
  · rw [dif_pos hroom]
    refine Fin.ext ?_
    rw [hmod, Nat.mod_eq_of_lt (hval ▸ hroom)]
    exact congrArg (· + 1) hval
  · rw [dif_neg hroom]
    refine Fin.ext ?_
    have hlast : k % size + 1 = size := by omega
    rw [hmod, hlast, Nat.mod_self]
    exact Nat.zero_mod size

end Slots

/-! ## Room -/

section Room

variable {T α : Type} {size : Nat}

def Pc.IsFull (c : Pc α) : Prop := c = .full

def Pc.IsReserved (c : Pc α) : Prop := ∃ obj, c = .reserved obj

/-- **Room**: `_count` is what the calls have reserved and not given back, and those that have
got room and the tickets in use fit into the array. -/
structure Counted (g : History α) (s : State T α size) : Prop where
  balance : s.count + g.refused + g.dequeued.length = g.called
  room : ∃ full reserved, Census Pc.IsFull s.pc full ∧ Census Pc.IsReserved s.pc reserved ∧
    full + reserved + s.head + g.refused = g.called ∧
    reserved + s.head ≤ size + g.dequeued.length

variable {g : History α} {s : State T α size} {t : T} {obj ret : α} {head : Nat}

/-- The tickets in use fit into the array. -/
theorem Counted.head_le (h : Counted g s) : s.head ≤ size + g.dequeued.length := by
  obtain ⟨full, reserved, -, -, -, hroom⟩ := h.room
  omega

/-- A ticket that has not been given back is counted. -/
theorem Counted.count_pos (h : Counted g s) (hlt : g.dequeued.length < s.head) : 0 < s.count := by
  obtain ⟨full, reserved, -, -, hsum, -⟩ := h.room
  have := h.balance
  omega

/-- A call that backs off is counted. -/
theorem Counted.count_pos_of_full (h : Counted g s) (hc : s.pc t = .full)
    (hle : g.dequeued.length ≤ s.head) : 0 < s.count := by
  obtain ⟨full, reserved, hfull, -, hsum, -⟩ := h.room
  have hone : 0 < full := hfull.pos (i := t) hc
  have := h.balance
  omega

/-- A call with room has a ticket to draw. -/
theorem Counted.ticket_left (h : Counted g s) (hc : s.pc t = .reserved obj) :
    s.head + 1 ≤ size + g.dequeued.length ∧ s.head + 1 ≤ g.called := by
  obtain ⟨full, reserved, -, hreserved, hsum, hroom⟩ := h.room
  have hone : 0 < reserved := hreserved.pos (i := t) ⟨obj, hc⟩
  omega

variable [DecidableEq T]

theorem Counted.reserve (h : Counted g s) (hc : s.pc t = .idle) (hlt : s.count < size) :
    Counted { g with called := g.called + 1 }
      { s.goto t (.reserved obj) with count := s.count + 1 } := by
  have hbalance := h.balance
  obtain ⟨full, reserved, hfull, hreserved, hsum, -⟩ := h.room
  constructor
  · show s.count + 1 + g.refused + g.dequeued.length = g.called + 1
    omega
  · refine ⟨full, reserved + 1, hfull.stay ?_, hreserved.enter ?_ ⟨obj, rfl⟩, ?_, ?_⟩
    · simp [Pc.IsFull, hc]
    · simp [Pc.IsReserved, hc]
    · show full + (reserved + 1) + s.head + g.refused = g.called + 1
      omega
    · show reserved + 1 + s.head ≤ size + g.dequeued.length
      omega

theorem Counted.overflow (h : Counted g s) (hc : s.pc t = .idle) :
    Counted { g with called := g.called + 1 } { s.goto t .full with count := s.count + 1 } := by
  have hbalance := h.balance
  obtain ⟨full, reserved, hfull, hreserved, hsum, hroom⟩ := h.room
  constructor
  · show s.count + 1 + g.refused + g.dequeued.length = g.called + 1
    omega
  · refine ⟨full + 1, reserved, hfull.enter ?_ rfl, hreserved.stay ?_, ?_, hroom⟩
    · simp [Pc.IsFull, hc]
    · simp [Pc.IsReserved, hc]
    · show full + 1 + reserved + s.head + g.refused = g.called + 1
      omega

theorem Counted.backOff (h : Counted g s) (hc : s.pc t = .full)
    (hle : g.dequeued.length ≤ s.head) :
    Counted { g with refused := g.refused + 1 } { s.goto t .idle with count := s.count - 1 } := by
  have hbalance := h.balance
  have hpos := h.count_pos_of_full hc hle
  obtain ⟨full, reserved, hfull, hreserved, hsum, hroom⟩ := h.room
  have hone : 0 < full := hfull.pos (i := t) hc
  constructor
  · show s.count - 1 + (g.refused + 1) + g.dequeued.length = g.called
    omega
  · refine ⟨full - 1, reserved, hfull.leave hc ?_, hreserved.stay ?_, ?_, hroom⟩
    · simp [Pc.IsFull]
    · simp [Pc.IsReserved, hc]
    · show full - 1 + reserved + s.head + (g.refused + 1) = g.called
      omega

theorem Counted.draw (h : Counted g s) (hc : s.pc t = .reserved obj) :
    Counted { g with drawn := g.drawn ++ [(s.head, obj)] }
      { s.goto t (.ticketed obj s.head) with head := s.head + 1 } := by
  obtain ⟨full, reserved, hfull, hreserved, hsum, hroom⟩ := h.room
  have hone : 0 < reserved := hreserved.pos (i := t) ⟨obj, hc⟩
  refine ⟨h.balance, full, reserved - 1, hfull.stay ?_, hreserved.leave ⟨obj, hc⟩ ?_, ?_, ?_⟩
  · simp [Pc.IsFull, hc]
  · simp [Pc.IsReserved]
  · show full + (reserved - 1) + (s.head + 1) + g.refused = g.called
    omega
  · show reserved - 1 + (s.head + 1) ≤ size + g.dequeued.length
    omega

/-- The exchange of a producer reserves nothing. -/
theorem Counted.store (h : Counted g s) (hc : s.pc t = .ticketed obj head)
    (buffer : Fin size → α) : Counted g { s.goto t .idle with buffer := buffer } := by
  obtain ⟨full, reserved, hfull, hreserved, hsums⟩ := h.room
  refine ⟨h.balance, full, reserved, hfull.stay ?_, hreserved.stay ?_, hsums⟩
  · simp [Pc.IsFull, hc]
  · simp [Pc.IsReserved, hc]

omit [DecidableEq T] in
theorem Counted.giveBack (h : Counted g s) (hlt : g.dequeued.length < s.head) :
    Counted { g with dequeued := g.dequeued ++ [ret] }
      { s with consumer := .idle, count := s.count - 1 } := by
  have hbalance := h.balance
  have hpos := h.count_pos hlt
  obtain ⟨full, reserved, hfull, hreserved, hsum, hroom⟩ := h.room
  have hlen : (g.dequeued ++ [ret]).length = g.dequeued.length + 1 := List.length_append
  constructor
  · show s.count - 1 + g.refused + (g.dequeued ++ [ret]).length = g.called
    omega
  · refine ⟨full, reserved, hfull, hreserved, hsum, ?_⟩
    show reserved + s.head ≤ size + (g.dequeued ++ [ret]).length
    omega

end Room

/-! ## Objects -/

section Objects

variable {T α : Type} {size : Nat} [NeZero size] [Zero α]

/-- **The objects**: a ticket that has not been taken either is still with its producer, and
then its slot is empty, or its slot shows its object; and nothing else is in the slots. -/
structure Stored (g : History α) (s : State T α size) : Prop where
  tickets : g.drawn.map Prod.fst = List.range s.head
  nonzero : ∀ k obj, (k, obj) ∈ g.drawn → obj ≠ 0
  reserved : ∀ t obj, s.pc t = .reserved obj → obj ≠ 0
  taken : g.taken <+: g.drawn.map Prod.snd
  owner : ∀ t obj k, s.pc t = .ticketed obj k →
    g.taken.length ≤ k ∧ g.drawn[k]? = some (k, obj)
  unique : ∀ t u obj obj' k, s.pc t = .ticketed obj k → s.pc u = .ticketed obj' k → t = u
  shown : ∀ k obj, g.taken.length ≤ k → g.drawn[k]? = some (k, obj) →
    (∃ t, s.pc t = .ticketed obj k) ∨ s.buffer (slot size k) = obj
  source : ∀ i, s.buffer i ≠ 0 → ∃ k, g.taken.length ≤ k ∧ slot size k = i ∧
    g.drawn[k]? = some (k, s.buffer i) ∧ ∀ t obj, s.pc t ≠ .ticketed obj k

variable {g : History α} {s : State T α size} {t u : T} {obj obj' ret : α} {k : Nat}

/-- The objects are in the slots and in the hands of the producers. -/
theorem Stored.congr {g' : History α} {s' : State T α size} (h : Stored g s)
    (hdrawn : g'.drawn = g.drawn) (htaken : g'.taken = g.taken) (hhead : s'.head = s.head)
    (hbuffer : s'.buffer = s.buffer) (hpc : s'.pc = s.pc) : Stored g' s' := by
  obtain ⟨_, _, _, _, _⟩ := g'
  obtain ⟨_, _, _, _, _, _⟩ := s'
  subst hdrawn htaken hhead hbuffer hpc
  exact ⟨h.tickets, h.nonzero, h.reserved, h.taken, h.owner, h.unique, h.shown, h.source⟩

theorem Stored.length_drawn (h : Stored g s) : g.drawn.length = s.head := by
  have hlen := congrArg List.length h.tickets
  rwa [List.length_map, List.length_range] at hlen

theorem Stored.lt_head (h : Stored g s) (hk : g.drawn[k]? = some (k, obj)) : k < s.head := by
  rw [← h.length_drawn]
  exact (List.getElem?_eq_some_iff.mp hk).1

/-- The tickets after one more. -/
theorem Stored.drawn_concat (h : Stored g s) :
    (g.drawn ++ [(s.head, obj)])[k]? = some (k, obj') ↔
      g.drawn[k]? = some (k, obj') ∨ k = s.head ∧ obj' = obj := by
  have hlen := h.length_drawn
  rcases Nat.lt_trichotomy k s.head with hlt | rfl | hgt
  · rw [List.getElem?_append_left (by omega)]
    constructor
    · exact .inl
    · rintro (hk | ⟨rfl, -⟩)
      · exact hk
      · exact absurd hlt (Nat.lt_irrefl _)
  · rw [← hlen, List.getElem?_concat_length, List.getElem?_eq_none (Nat.le_refl _)]
    simp [eq_comm]
  · rw [List.getElem?_eq_none (by rw [List.length_append, hlen]; exact hgt),
      List.getElem?_eq_none (by omega)]
    simp [Nat.ne_of_gt hgt]

/-- A ticket in the hand of a producer has been drawn. -/
theorem Stored.ticket_lt (h : Stored g s) (hc : s.pc t = .ticketed obj k) : k < s.head :=
  h.lt_head (h.owner t obj k hc).2

/-- The tickets are numbered in the order in which they are drawn. -/
theorem Stored.drawn_lt (h : Stored g s) (hk : k < s.head) :
    ∃ obj, g.drawn[k]? = some (k, obj) := by
  have hget := List.getElem?_eq_getElem (h.length_drawn.symm ▸ hk)
  have hfst := congrArg (·[k]?) h.tickets
  simp only [List.getElem?_map, hget, Option.map_some, List.getElem?_range hk] at hfst
  exact ⟨_, hget.trans (congrArg some (Prod.ext (Option.some.inj hfst) rfl))⟩

theorem Stored.taken_le (h : Stored g s) : g.taken.length ≤ s.head := by
  have hle := h.taken.length_le
  rwa [List.length_map, h.length_drawn] at hle

/-- The object that a slot shows is the one of the only ticket in use with this slot. -/
theorem Stored.shows (h : Stored g s) (hwin : s.head ≤ g.taken.length + size)
    (hle : g.taken.length ≤ k) (hlt : k < g.taken.length + size)
    (hne : s.buffer (slot size k) ≠ 0) :
    g.drawn[k]? = some (k, s.buffer (slot size k)) ∧ ∀ t obj, s.pc t ≠ .ticketed obj k := by
  obtain ⟨k', hle', hslot, hdrawn, hnone⟩ := h.source _ hne
  have hlt' := h.lt_head hdrawn
  obtain rfl := slot_inj hle' hle (by omega) hlt hslot
  exact ⟨hdrawn, hnone⟩

/-- **The slot of a ticket is free** until its producer has come. -/
theorem Stored.free (h : Stored g s) (hwin : s.head ≤ g.taken.length + size)
    (hc : s.pc t = .ticketed obj k) : s.buffer (slot size k) = 0 := by
  have hle := (h.owner t obj k hc).1
  have hlt := h.ticket_lt hc
  by_contra hne
  exact (h.shows hwin hle (by omega) hne).2 t obj hc

section Producers

variable [DecidableEq T] {c : Pc α}

/-- A step of a producer without a ticket. -/
theorem Stored.goto (h : Stored g s) (hold : ∀ obj k, s.pc t ≠ .ticketed obj k)
    (hnew : ∀ obj k, c ≠ .ticketed obj k) (hreserved : ∀ obj, c = .reserved obj → obj ≠ 0) :
    Stored g (s.goto t c) := by
  have hpc : ∀ {u : T} {obj k}, (s.goto t c).pc u = .ticketed obj k ↔ s.pc u = .ticketed obj k :=
    update_iff (hold _ _) (hnew _ _)
  refine ⟨h.tickets, h.nonzero, ?_, h.taken, fun u obj k hu => h.owner u obj k (hpc.mp hu),
    fun u v obj obj' k hu hv => h.unique u v obj obj' k (hpc.mp hu) (hpc.mp hv), ?_, ?_⟩
  · intro u obj hu
    rcases pc_goto hu with ⟨-, hc⟩ | ⟨-, hu'⟩
    · exact hreserved obj hc
    · exact h.reserved u obj hu'
  · intro k obj hle hk
    rcases h.shown k obj hle hk with ⟨u, hu⟩ | hslot
    · exact .inl ⟨u, hpc.mpr hu⟩
    · exact .inr hslot
  · intro i hi
    obtain ⟨k, hle, hslot, hk, hnone⟩ := h.source i hi
    exact ⟨k, hle, hslot, hk, fun u obj hu => hnone u obj (hpc.mp hu)⟩

/-- A producer draws a ticket. -/
theorem Stored.draw (h : Stored g s) (hc : s.pc t = .reserved obj) :
    Stored { g with drawn := g.drawn ++ [(s.head, obj)] }
      { s.goto t (.ticketed obj s.head) with head := s.head + 1 } := by
  -- the other tickets are smaller
  have hnew : ∀ {u obj'}, s.pc u ≠ .ticketed obj' s.head := fun hu =>
    Nat.lt_irrefl _ (h.ticket_lt hu)
  refine ⟨?_, ?_, ?_, ?_, ?_, ?_, ?_, ?_⟩
  · show (g.drawn ++ [(s.head, obj)]).map Prod.fst = List.range (s.head + 1)
    rw [List.map_append, h.tickets]
    exact List.range_succ.symm
  · intro k obj' hmem
    rcases List.mem_append.mp hmem with hmem | hmem
    · exact h.nonzero k obj' hmem
    · obtain ⟨rfl, rfl⟩ := Prod.mk.inj (List.mem_singleton.mp hmem)
      exact h.reserved t obj' hc
  · intro u obj' hu
    rcases pc_goto hu with ⟨-, hc'⟩ | ⟨-, hu'⟩
    · cases hc'
    · exact h.reserved u obj' hu'
  · show g.taken <+: (g.drawn ++ [(s.head, obj)]).map Prod.snd
    rw [List.map_append]
    exact h.taken.trans (List.prefix_append ..)
  · intro u obj' k hu
    rcases pc_goto hu with ⟨-, hc'⟩ | ⟨-, hu'⟩
    · obtain ⟨rfl, rfl⟩ := Pc.ticketed.inj hc'
      exact ⟨h.taken_le, h.drawn_concat.mpr (.inr ⟨rfl, rfl⟩)⟩
    · obtain ⟨hle, hk⟩ := h.owner u obj' k hu'
      exact ⟨hle, h.drawn_concat.mpr (.inl hk)⟩
  · intro u v obj₁ obj₂ k hu hv
    rcases pc_goto hu with ⟨hut, hcu⟩ | ⟨-, hu'⟩ <;> rcases pc_goto hv with ⟨hvt, hcv⟩ | ⟨-, hv'⟩
    · exact hut.trans hvt.symm
    · obtain ⟨-, rfl⟩ := Pc.ticketed.inj hcu
      exact absurd hv' hnew
    · obtain ⟨-, rfl⟩ := Pc.ticketed.inj hcv
      exact absurd hu' hnew
    · exact h.unique u v obj₁ obj₂ k hu' hv'
  · intro k obj' hle hk
    rcases h.drawn_concat.mp hk with hk | ⟨rfl, rfl⟩
    · rcases h.shown k obj' hle hk with ⟨u, hu⟩ | hslot
      · exact .inl ⟨u, update_stay hu (by simp [hc])⟩
      · exact .inr hslot
    · -- the new ticket is with its producer
      exact .inl ⟨t, pc_goto_self⟩
  · intro i hi
    obtain ⟨k, hle, hslot, hk, hnone⟩ := h.source i hi
    have hlt := h.lt_head hk
    refine ⟨k, hle, hslot, h.drawn_concat.mpr (.inl hk), fun u obj' hu => ?_⟩
    rcases pc_goto hu with ⟨-, hc'⟩ | ⟨-, hu'⟩
    · obtain ⟨-, rfl⟩ := Pc.ticketed.inj hc'
      exact Nat.lt_irrefl _ hlt
    · exact hnone u obj' hu'

/-- A producer exchanges its object into its slot. -/
theorem Stored.store (h : Stored g s) (hwin : s.head ≤ g.taken.length + size)
    (hc : s.pc t = .ticketed obj k) :
    Stored g { s.goto t .idle with buffer := Function.update s.buffer (slot size k) obj } := by
  obtain ⟨hle, hdrawn⟩ := h.owner t obj k hc
  have hlt := h.ticket_lt hc
  have hpc : ∀ {u obj' k'}, (s.goto t .idle).pc u = .ticketed obj' k' →
      u ≠ t ∧ s.pc u = .ticketed obj' k' := by
    intro u obj' k' hu
    rcases pc_goto hu with ⟨-, hc'⟩ | hu'
    · cases hc'
    · exact hu'
  refine ⟨h.tickets, h.nonzero, ?_, h.taken, fun u obj' k' hu => h.owner u obj' k' (hpc hu).2,
    fun u v obj₁ obj₂ k' hu hv => h.unique u v obj₁ obj₂ k' (hpc hu).2 (hpc hv).2, ?_, ?_⟩
  · intro u obj' hu
    rcases pc_goto hu with ⟨-, hc'⟩ | ⟨-, hu'⟩
    · cases hc'
    · exact h.reserved u obj' hu'
  · intro k' obj' hle' hk'
    have hlt' := h.lt_head hk'
    show _ ∨ Function.update s.buffer (slot size k) obj (slot size k') = obj'
    by_cases hkk : k' = k
    · subst hkk
      obtain ⟨-, rfl⟩ := Prod.mk.inj (Option.some.inj (hdrawn.symm.trans hk'))
      exact .inr (Function.update_self ..)
    · have hslot : slot size k' ≠ slot size k := fun heq =>
        hkk (slot_inj hle' hle (by omega) (by omega) heq)
      rw [Function.update_of_ne hslot]
      rcases h.shown k' obj' hle' hk' with ⟨u, hu⟩ | hshown
      · refine .inl ⟨u, update_stay hu fun ht => ?_⟩
        exact hkk (Pc.ticketed.inj (ht.symm.trans hc)).2
      · exact .inr hshown
  · intro i hi
    have hi' : Function.update s.buffer (slot size k) obj i ≠ 0 := hi
    show ∃ k', _ ∧ _ ∧ _ = some (k', Function.update s.buffer (slot size k) obj i) ∧ _
    by_cases hik : i = slot size k
    · subst hik
      rw [Function.update_self]
      refine ⟨k, hle, rfl, hdrawn, fun u obj' hu => ?_⟩
      obtain ⟨hut, hu'⟩ := hpc hu
      exact hut (h.unique u t obj' obj k hu' hc)
    · rw [Function.update_of_ne hik] at hi' ⊢
      obtain ⟨k', hle', hslot, hk', hnone⟩ := h.source i hi'
      exact ⟨k', hle', hslot, hk', fun u obj' hu => hnone u obj' (hpc hu).2⟩

end Producers

/-- The consumer takes the object of the next ticket. -/
theorem Stored.next_taken (h : Stored g s) (hwin : s.head ≤ g.taken.length + size)
    (hpos : s.buffer (slot size g.taken.length) = ret) (hne : ret ≠ 0) :
    g.drawn[g.taken.length]? = some (g.taken.length, ret) ∧
      ∀ t obj, s.pc t ≠ .ticketed obj g.taken.length := by
  subst hpos
  exact h.shows hwin (Nat.le_refl _) (Nat.lt_add_of_pos_right (Nat.pos_of_neZero size)) hne

theorem Stored.take (h : Stored g s) (hwin : s.head ≤ g.taken.length + size)
    (hslot : s.buffer (slot size g.taken.length) = ret) (hne : ret ≠ 0) :
    Stored { g with taken := g.taken ++ [ret] }
      { s with
        consumer := .taken ret
        buffer := Function.update s.buffer (slot size g.taken.length) 0 } := by
  obtain ⟨hdrawn, hnone⟩ := h.next_taken hwin hslot hne
  have hlen : (g.taken ++ [ret]).length = g.taken.length + 1 := List.length_append
  refine ⟨h.tickets, h.nonzero, h.reserved, ?_, ?_, h.unique, ?_, ?_⟩
  · show g.taken ++ [ret] <+: g.drawn.map Prod.snd
    have hget : (g.drawn.map Prod.snd)[g.taken.length]? = some ret := by
      rw [List.getElem?_map, hdrawn]
      rfl
    rw [List.prefix_iff_eq_take, hlen, List.take_add_one, hget,
      ← List.prefix_iff_eq_take.mp h.taken]
    rfl
  · intro t obj k hc
    obtain ⟨hle, hk⟩ := h.owner t obj k hc
    refine ⟨?_, hk⟩
    have hkne : k ≠ g.taken.length := by
      rintro rfl
      exact hnone t obj hc
    show (g.taken ++ [ret]).length ≤ k
    omega
  · intro k obj hle hk
    have hle' : g.taken.length + 1 ≤ k := hlen ▸ hle
    have hlt := h.lt_head hk
    rcases h.shown k obj (by omega) hk with ⟨t, ht⟩ | hshown
    · exact .inl ⟨t, ht⟩
    · refine .inr ?_
      have hkne : slot size k ≠ slot size g.taken.length := slot_ne hle' (by omega)
      show Function.update s.buffer (slot size g.taken.length) 0 (slot size k) = obj
      rw [Function.update_of_ne hkne]
      exact hshown
  · intro i hi
    have hi' : Function.update s.buffer (slot size g.taken.length) 0 i ≠ 0 := hi
    have hit : i ≠ slot size g.taken.length := by
      rintro rfl
      exact hi' (Function.update_self ..)
    show ∃ k, _ ∧ _ ∧ _ = some (k, Function.update s.buffer (slot size g.taken.length) 0 i) ∧ _
    rw [Function.update_of_ne hit] at hi' ⊢
    obtain ⟨k, hle, hki, hk, hnone'⟩ := h.source i hi'
    refine ⟨k, ?_, hki, hk, hnone'⟩
    have hkne : k ≠ g.taken.length := by
      rintro rfl
      exact hit hki.symm
    show (g.taken ++ [ret]).length ≤ k
    omega

end Objects

/-! ## The consumer -/

section Consumption

variable {T α : Type} {size : Nat} [NeZero size]

/-- **The consumer**: it has given back the room of every object it has taken, but for the one
in its hand, and `_tail` is the slot of the next ticket as soon as it has moved it. -/
def Served (g : History α) (s : State T α size) : Prop :=
  match s.consumer with
  | .idle => g.taken = g.dequeued ∧ s.tail = slot size g.taken.length
  | .taken ret => g.taken = g.dequeued ++ [ret] ∧ s.tail = slot size g.dequeued.length
  | .advanced ret => g.taken = g.dequeued ++ [ret] ∧ s.tail = slot size g.taken.length

variable {g : History α} {s : State T α size} {ret : α}

theorem Served.idle (h : Served g s) (hc : s.consumer = .idle) :
    g.taken = g.dequeued ∧ s.tail = slot size g.taken.length := by
  rw [Served, hc] at h
  exact h

theorem Served.advanced (h : Served g s) (hc : s.consumer = .advanced ret) :
    g.taken = g.dequeued ++ [ret] ∧ s.tail = slot size g.taken.length := by
  rw [Served, hc] at h
  exact h

/-- What has been returned has been taken before. -/
theorem Served.dequeued_prefix (h : Served g s) : g.dequeued <+: g.taken := by
  cases hc : s.consumer with
  | idle => rw [(h.idle hc).1]
  | taken ret =>
    rw [Served, hc] at h
    rw [h.1]
    exact List.prefix_append ..
  | advanced ret =>
    rw [(h.advanced hc).1]
    exact List.prefix_append ..

theorem Served.take (h : Served g s) (hc : s.consumer = .idle) (buffer : Fin size → α) :
    Served { g with taken := g.taken ++ [ret] }
      { s with consumer := .taken ret, buffer := buffer } := by
  obtain ⟨htaken, htail⟩ := h.idle hc
  refine ⟨congrArg (· ++ [ret]) htaken, ?_⟩
  show s.tail = slot size g.dequeued.length
  rw [htail, htaken]

theorem Served.advance (h : Served g s) (hc : s.consumer = .taken ret) :
    Served g { s with consumer := .advanced ret, tail := nextTail s.tail } := by
  rw [Served, hc] at h
  obtain ⟨htaken, htail⟩ := h
  refine ⟨htaken, ?_⟩
  show nextTail s.tail = slot size g.taken.length
  rw [htail, nextTail_slot, htaken, List.length_append]
  rfl

theorem Served.giveBack (h : Served g s) (hc : s.consumer = .advanced ret) (count : Nat) :
    Served { g with dequeued := g.dequeued ++ [ret] }
      { s with consumer := .idle, count := count } := h.advanced hc

end Consumption

/-! ## Runs -/

section Runs

variable {T α : Type} {size : Nat} [NeZero size] [Zero α]

structure Inv (g : History α) (s : State T α size) : Prop where
  counted : Counted g s
  stored : Stored g s
  served : Served g s

variable {g : History α} {s s' : State T α size} {tr es : List (Event T α)} {t : T}
  {obj ret : α}

theorem inv_initial : Inv (history ([] : List (Event T α))) (.initial : State T α size) where
  counted := by
    refine ⟨rfl, 0, 0, .zero fun t hc => ?_, .zero fun t hc => ?_, rfl, Nat.zero_le _⟩
    · cases hc
    · obtain ⟨obj, hc⟩ := hc
      cases hc
  stored := by
    refine ⟨rfl, fun k obj hmem => ?_, fun t obj hc => ?_, List.prefix_rfl, fun t obj k hc => ?_,
      fun t u obj obj' k hc => ?_, fun k obj _ hk => ?_, fun i hi => absurd rfl hi⟩
    · cases hmem
    · cases hc
    · cases hc
    · cases hc
    · cases hk
  served := ⟨rfl, rfl⟩

theorem Inv.dequeued_le (h : Inv g s) : g.dequeued.length ≤ g.taken.length :=
  h.served.dequeued_prefix.length_le

/-- The tickets that have not been taken have slots of their own. -/
theorem Inv.window (h : Inv g s) : s.head ≤ g.taken.length + size := by
  have hroom := h.counted.head_le
  have hle := h.dequeued_le
  omega

/-- The object in the consumer's hand has not been given back. -/
theorem Inv.advanced_lt (h : Inv g s) (hc : s.consumer = .advanced ret) :
    g.dequeued.length < s.head := by
  have hle := h.stored.taken_le
  rw [(h.served.advanced hc).1, List.length_append] at hle
  exact hle

theorem Inv.count_le (h : Inv g s) : s.count ≤ g.called := by
  have := h.counted.balance
  omega

omit [NeZero size] in
/-- An empty slot is exchanged for an empty slot. -/
theorem miss_same (hslot : s.buffer s.tail = 0) :
    ({ s with buffer := Function.update s.buffer s.tail 0 } : State T α size) = s := by
  have hsame : Function.update s.buffer s.tail 0 = s.buffer := by
    rw [← hslot]
    exact Function.update_eq_self ..
  rw [hsame]

variable [DecidableEq T]

/-- Every step keeps the invariant, as long as no counter wraps around. -/
theorem inv_step (h : Inv g s) (hs : Step s es s')
    (hfew : (es.foldl History.next g).called < 2 ^ 64) : Inv (es.foldl History.next g) s' := by
  have hcount := h.count_le
  cases hs with
  | @reserve t obj hc hne hlt =>
    have hone : g.called + 1 < 2 ^ 64 := hfew
    rw [SpinLock.succSize_eq (Nat.lt_of_le_of_lt (Nat.succ_le_succ hcount) hone)]
    have hstored : Stored g (s.goto t (.reserved obj)) := by
      refine h.stored.goto (by simp [hc]) (by simp) fun obj' heq => ?_
      rw [← Pc.reserved.inj heq]
      exact hne
    exact ⟨h.counted.reserve hc hlt, hstored.congr rfl rfl rfl rfl rfl, h.served⟩
  | @overflow t obj hc hne hge =>
    have hone : g.called + 1 < 2 ^ 64 := hfew
    rw [SpinLock.succSize_eq (Nat.lt_of_le_of_lt (Nat.succ_le_succ hcount) hone)]
    have hstored : Stored g (s.goto t .full) :=
      h.stored.goto (by simp [hc]) (by simp) (by simp)
    exact ⟨h.counted.overflow hc, hstored.congr rfl rfl rfl rfl rfl, h.served⟩
  | @backOff t hc =>
    have hlt : g.called < 2 ^ 64 := hfew
    have hle := h.dequeued_le.trans h.stored.taken_le
    rw [predSize_eq (h.counted.count_pos_of_full hc hle) (Nat.lt_of_le_of_lt hcount hlt)]
    have hstored : Stored g (s.goto t .idle) :=
      h.stored.goto (by simp [hc]) (by simp) (by simp)
    exact ⟨h.counted.backOff hc hle, hstored.congr rfl rfl rfl rfl rfl, h.served⟩
  | @draw t obj hc =>
    have hlt : g.called < 2 ^ 64 := hfew
    rw [SpinLock.succSize_eq (Nat.lt_of_le_of_lt (h.counted.ticket_left hc).2 hlt)]
    exact ⟨h.counted.draw hc, h.stored.draw hc, h.served⟩
  | @store t obj head hc =>
    exact ⟨h.counted.store hc _, h.stored.store h.window hc, h.served⟩
  | @take ret hc hslot hne =>
    have htail := (h.served.idle hc).2
    have hbuffer : Function.update s.buffer s.tail 0 =
        Function.update s.buffer (slot size g.taken.length) 0 := by rw [htail]
    rw [htail] at hslot
    rw [hbuffer]
    have hserved : Served { g with taken := g.taken ++ [ret] } _ := h.served.take hc
      (Function.update s.buffer (slot size g.taken.length) 0)
    exact ⟨⟨h.counted.balance, h.counted.room⟩, h.stored.take h.window hslot hne, hserved⟩
  | miss hc hslot =>
    rw [miss_same hslot]
    exact h
  | advance hc =>
    exact ⟨⟨h.counted.balance, h.counted.room⟩, h.stored.congr rfl rfl rfl rfl rfl,
      h.served.advance hc⟩
  | @giveBack ret hc =>
    have hlt : g.called < 2 ^ 64 := hfew
    have hadv := h.advanced_lt hc
    rw [predSize_eq (h.counted.count_pos hadv) (Nat.lt_of_le_of_lt hcount hlt)]
    exact ⟨h.counted.giveBack hadv, h.stored.congr rfl rfl rfl rfl rfl, h.served.giveBack hc _⟩

/-- The invariant holds after every run with fewer than `2 ^ 64` calls. -/
theorem inv_reach (hr : Reach (machine T α size) tr s) (hfew : (history tr).called < 2 ^ 64) :
    Inv (history tr) s := by
  refine Reach.invariant (I := fun tr s => (history tr).called < 2 ^ 64 → Inv (history tr) s)
    ?_ ?_ hr hfew
  · rintro s rfl _
    exact inv_initial
  · intro tr es s s' _ ih hs hfew
    rw [history_append] at hfew ⊢
    exact inv_step (ih (Nat.lt_of_le_of_lt (called_le _ es) hfew)) hs hfew

/-! ## What the steps find -/

/-- What the assertions of the source ask of an event. -/
def Event.Clean : Event T α → Prop
  | .stored _ _ rv => rv = 0
  | .dequeued _ r => 0 < r
  | .called _ _ | .refused _ | .drawn _ _ _ | .taken _ | .missed => True

theorem clean_step (h : Inv g s) (hs : Step s es s') : ∀ e ∈ es, e.Clean := by
  intro e he
  cases hs with
  | store hc =>
    rw [List.mem_singleton.mp he]
    exact h.stored.free h.window hc
  | giveBack hc =>
    rw [List.mem_singleton.mp he]
    exact h.counted.count_pos (h.advanced_lt hc)
  | advance => cases he
  | _ =>
    rw [List.mem_singleton.mp he]
    trivial

theorem clean_reach (hr : Reach (machine T α size) tr s) (hfew : (history tr).called < 2 ^ 64) :
    ∀ e ∈ tr, e.Clean := by
  refine Reach.invariant (I := fun tr _ => (history tr).called < 2 ^ 64 → ∀ e ∈ tr, e.Clean)
    ?_ ?_ hr hfew
  · intro s _ _ e he
    cases he
  · intro tr es s s' hr ih hs hfew e he
    rw [history_append] at hfew
    have hfew' := Nat.lt_of_le_of_lt (called_le _ es) hfew
    rcases List.mem_append.mp he with he | he
    · exact ih hfew' e he
    · exact clean_step (inv_reach hr hfew') hs e he

/-! ## Calls that fail -/

/-- Whoever is about to back off has called last. -/
theorem calledLast_step (h : ∀ t, s.pc t = .full → CalledLast t tr) (hs : Step s es s') :
    ∀ t, s'.pc t = .full → CalledLast t (tr ++ es) := by
  intro t ht
  have other : ∀ (u : T) (c : Pc α) {e : Event T α}, (s.goto u c).pc t = .full → c ≠ .full →
      e.thread = some u → CalledLast t (tr ++ [e]) := by
    intro u c e ht hc he
    rcases pc_goto ht with ⟨-, hc'⟩ | ⟨htu, ht'⟩
    · exact absurd hc' hc
    · refine (h t ht').append fun e' he' => ?_
      rw [List.mem_singleton.mp he', he]
      exact fun heq => htu (Option.some.inj heq).symm
  cases hs with
  | @reserve u obj => exact other u (.reserved obj) ht (by simp) rfl
  | @overflow u obj =>
    rcases pc_goto ht with ⟨rfl, -⟩ | ⟨htu, ht'⟩
    · exact ⟨tr, obj, [], rfl, fun e he => by cases he⟩
    · refine (h t ht').append fun e he => ?_
      rw [List.mem_singleton.mp he]
      exact fun heq => htu (Option.some.inj heq).symm
  | @backOff u => exact other u .idle ht (by simp) rfl
  | @draw u obj => exact other u (.ticketed obj s.head) ht (by simp) rfl
  | @store u => exact other u .idle ht (by simp) rfl
  | advance =>
    rw [List.append_nil]
    exact h t ht
  | take | miss | giveBack =>
    refine (h t ht).append fun e he => ?_
    rw [List.mem_singleton.mp he]
    exact fun heq => by cases heq

theorem calledLast_reach (hr : Reach (machine T α size) tr s) :
    (∀ t, s.pc t = .full → CalledLast t tr) ∧
      Causal (fun pre e => ∀ t, e = .refused t → CalledLast t pre) tr := by
  refine Reach.invariant (I := fun tr s => (∀ t, s.pc t = .full → CalledLast t tr) ∧
    Causal (fun pre e => ∀ t, e = .refused t → CalledLast t pre) tr) ?_ ?_ hr
  · rintro s rfl
    refine ⟨fun t ht => ?_, Causal.nil⟩
    cases ht
  · rintro tr es s s' _ ⟨hfull, hcausal⟩ hs
    refine ⟨calledLast_step hfull hs, ?_⟩
    cases hs with
    | @backOff t hc =>
      refine hcausal.snoc fun u heq => ?_
      rw [← Event.refused.inj heq]
      exact hfull t hc
    | advance =>
      rw [List.append_nil]
      exact hcausal
    | _ => exact hcausal.snoc fun u heq => by cases heq

/-- Neither the slots nor the two ends of the queue have changed. -/
def SameSlots (s s' : State T α size) : Prop :=
  s'.buffer = s.buffer ∧ s'.head = s.head ∧ s'.tail = s.tail

/-- The first step of `enqueue`. -/
theorem Inv.call_step (h : Inv g s) (hs : Step s [.called t obj] s')
    (hfew : g.called + 1 < 2 ^ 64) : SameSlots s s' ∧ s'.count = s.count + 1 := by
  have hcount := h.count_le
  have hone : s.count + 1 < 2 ^ 64 := by omega
  cases hs with
  | reserve => exact ⟨⟨rfl, rfl, rfl⟩, SpinLock.succSize_eq hone⟩
  | overflow => exact ⟨⟨rfl, rfl, rfl⟩, SpinLock.succSize_eq hone⟩

/-- The step with which it fails. -/
theorem Inv.refuse_step (h : Inv g s) (hs : Step s [.refused t] s') (hfew : g.called < 2 ^ 64) :
    SameSlots s s' ∧ s'.count + 1 = s.count := by
  have hcount := h.count_le
  cases hs with
  | backOff hc =>
    have hpos := h.counted.count_pos_of_full hc (h.dequeued_le.trans h.stored.taken_le)
    refine ⟨⟨rfl, rfl, rfl⟩, ?_⟩
    show predSize s.count + 1 = s.count
    rw [predSize_eq hpos (by omega)]
    omega

end Runs

/-- **The queue loses, duplicates and reorders nothing.** A producer finds its slot empty; the
consumer returns the objects in the order of the tickets, 0, 1, 2, …, and finds its room
counted. A call that fails makes no other step than to count itself and to take this back,
and neither touches the slots or the ends of the queue. What has not been taken is with its
producer or in its slot. -/
theorem queue_keeps_order (T α : Type) [DecidableEq T] [Zero α] (size : Nat) [NeZero size]
    {tr : List (Event T α)} {s : State T α size} (hr : Reach (machine T α size) tr s)
    (hfew : (history tr).called < 2 ^ 64) :
    ((∀ t obj head, s.pc t = .ticketed obj head → s.buffer (slot size head) = 0) ∧
      ∀ t obj rv, .stored t obj rv ∈ tr → rv = 0) ∧
    ((history tr).drawn.map Prod.fst = List.range (history tr).drawn.length ∧
      (history tr).dequeued <+: (history tr).taken ∧
      (history tr).taken <+: (history tr).drawn.map Prod.snd) ∧
    ((∀ ret, s.consumer = .advanced ret → 0 < s.count) ∧
      ∀ ret r, .dequeued ret r ∈ tr → 0 < r) ∧
    (s.count + (history tr).refused + (history tr).dequeued.length = (history tr).called ∧
      (∀ before t after, tr = before ++ .refused t :: after → CalledLast t before) ∧
      (∀ t obj s', Step s [.called t obj] s' → (history tr).called + 1 < 2 ^ 64 →
        SameSlots s s' ∧ s'.count = s.count + 1) ∧
      ∀ t s', Step s [.refused t] s' → SameSlots s s' ∧ s'.count + 1 = s.count) ∧
    ∀ k obj, (history tr).taken.length ≤ k → (history tr).drawn[k]? = some (k, obj) →
      (∃ t, s.pc t = .ticketed obj k) ∨ s.buffer (slot size k) = obj := by
  have h := inv_reach hr hfew
  have hclean := clean_reach hr hfew
  refine ⟨⟨fun t obj head hc => h.stored.free h.window hc, fun t obj rv hmem => hclean _ hmem⟩,
    ⟨?_, h.served.dequeued_prefix, h.stored.taken⟩,
    ⟨fun ret hc => h.counted.count_pos (h.advanced_lt hc), fun ret r hmem => hclean _ hmem⟩,
    ⟨h.counted.balance, fun before t after heq => ?_, fun t obj s' hs => h.call_step hs,
      fun t s' hs => h.refuse_step hs hfew⟩, h.stored.shown⟩
  · rw [h.stored.length_drawn]
    exact h.stored.tickets
  · exact (calledLast_reach hr).2 before _ after heq t rfl

/-- Two slots and three producers. Producer 1 gets the first ticket but comes last, so that the
consumer finds an empty slot; producer 2 finds no room. -/
theorem queue_keeps_order_two :
    ∃ (tr : List (Event Nat Nat)) (s : State Nat Nat 2), Reach (machine Nat Nat 2) tr s ∧
      (history tr).drawn = [(0, 6), (1, 5)] ∧ (history tr).dequeued = [6] ∧
      (history tr).taken <+: (history tr).drawn.map Prod.snd ∧ s.count = 1 := by
  have h₀ : Reach (machine Nat Nat 2) [] .initial := Reach.init rfl
  have h₁ := h₀.step (show Step _ [.called 0 5] _ from .reserve rfl (by decide) (by decide))
  have h₂ := h₁.step (show Step _ [.called 1 6] _ from .reserve rfl (by decide) (by decide))
  have h₃ := h₂.step (show Step _ [.called 2 7] _ from .overflow rfl (by decide) (by decide))
  have h₄ := h₃.step (.draw (show State.pc _ 1 = .reserved 6 from rfl))
  have h₅ := h₄.step (.draw (show State.pc _ 0 = .reserved 5 from rfl))
  have h₆ := h₅.step (.backOff (show State.pc _ 2 = .full from rfl))
  have h₇ := h₆.step (.store (show State.pc _ 0 = .ticketed 5 1 from rfl))
  have h₈ := h₇.step (.miss rfl rfl)
  have h₉ := h₈.step (.store (show State.pc _ 1 = .ticketed 6 0 from rfl))
  have h₁₀ := h₉.step (show Step _ [.taken 6] _ from .take rfl rfl (by decide))
  have h₁₁ := h₁₀.step (Step.advance rfl)
  have h₁₂ := h₁₁.step (Step.giveBack rfl)
  obtain ⟨-, ⟨-, -, htaken⟩, -, ⟨hcount, -⟩, -⟩ := queue_keeps_order Nat Nat 2 h₁₂ (by decide)
  -- three calls, of which one was refused and one has been given back
  exact ⟨_, _, h₁₂, rfl, rfl, htaken, Nat.succ.inj (Nat.succ.inj hcount)⟩

/-! ## The queue as a list -/

/-- What is seen of the queue from outside. -/
inductive Usage (α : Type) where
  | pushed (obj : α)
  | popped (obj : α)
deriving DecidableEq, Repr

/-- A bounded queue is a list, pushed at one end and popped at the other. -/
inductive FifoStep {α : Type} (size : Nat) : List α → List (Usage α) → List α → Prop where
  | push {objects : List α} {obj : α} :
      objects.length < size → FifoStep size objects [.pushed obj] (objects ++ [obj])
  | pop {objects : List α} {obj : α} : FifoStep size (obj :: objects) [.popped obj] objects

def fifo (α : Type) (size : Nat) : System (List α) (Usage α) where
  init := (· = [])
  step := FifoStep size

section Fifo

variable {T α : Type} {size : Nat}

/-- An object is in the queue from its ticket on, and until it is taken. -/
def Event.usage : Event T α → Option (Usage α)
  | .drawn _ obj _ => some (.pushed obj)
  | .taken ret => some (.popped ret)
  | .called _ _ | .refused _ | .stored _ _ _ | .missed | .dequeued _ _ => none

/-- The objects in the queue. -/
def History.waiting (g : History α) : List α := (g.drawn.map Prod.snd).drop g.taken.length

variable [NeZero size] [Zero α] [DecidableEq T] {g : History α} {s s' : State T α size}
  {tr es : List (Event T α)}

/-- **An empty slot** does not hide an object: `dequeue` returns 0 only if the queue is empty,
or if the producer of the next ticket has not exchanged its object yet. It changes nothing
then. As before, `enqueue` is called fewer than `2 ^ 64` times. -/
theorem dequeue_misses (hr : Reach (machine T α size) tr s)
    (hfew : (history tr).called < 2 ^ 64) (hs : Step s [.missed] s') :
    s' = s ∧ ((history tr).waiting = [] ∨
      ∃ t obj, s.pc t = .ticketed obj (history tr).taken.length) := by
  have h := inv_reach hr hfew
  cases hs with
  | miss hc hslot =>
    refine ⟨miss_same hslot, ?_⟩
    rw [(h.served.idle hc).2] at hslot
    by_cases hlt : (history tr).taken.length < s.head
    · obtain ⟨obj, hk⟩ := h.stored.drawn_lt hlt
      rcases h.stored.shown _ obj (Nat.le_refl _) hk with ⟨t, ht⟩ | hshown
      · exact .inr ⟨t, obj, ht⟩
      · have hne := h.stored.nonzero _ obj (List.mem_of_getElem? hk)
        exact absurd (hshown.symm.trans hslot) hne
    · refine .inl (List.drop_eq_nil_of_le ?_)
      rw [List.length_map, h.stored.length_drawn]
      exact Nat.le_of_not_lt hlt

/-- Producer 1 has the first ticket and has not exchanged its object, so that the consumer does not
see the object of producer 0. -/
theorem dequeue_misses_two :
    ∃ (tr : List (Event Nat Nat)) (s : State Nat Nat 2), Reach (machine Nat Nat 2) tr s ∧
      (history tr).waiting = [6, 5] ∧ s.buffer 1 = 5 ∧
      ((history tr).waiting = [] ∨ ∃ t obj, s.pc t = .ticketed obj (history tr).taken.length) := by
  have h₀ : Reach (machine Nat Nat 2) [] .initial := Reach.init rfl
  have h₁ := h₀.step (show Step _ [.called 0 5] _ from .reserve rfl (by decide) (by decide))
  have h₂ := h₁.step (show Step _ [.called 1 6] _ from .reserve rfl (by decide) (by decide))
  have h₃ := h₂.step (.draw (show State.pc _ 1 = .reserved 6 from rfl))
  have h₄ := h₃.step (.draw (show State.pc _ 0 = .reserved 5 from rfl))
  have h₅ := h₄.step (.store (show State.pc _ 0 = .ticketed 5 1 from rfl))
  exact ⟨_, _, h₅, rfl, rfl, (dequeue_misses h₅ (by decide) (.miss rfl rfl)).2⟩

/-- What a step does to the list. -/
theorem usage_step (h : Inv g s) (hs : Step s es s') :
    ((es.foldl History.next g).waiting = g.waiting ∧ es.filterMap Event.usage = []) ∨
      FifoStep size g.waiting (es.filterMap Event.usage) (es.foldl History.next g).waiting := by
  have hlen : (g.drawn.map Prod.snd).length = s.head := by
    rw [List.length_map]
    exact h.stored.length_drawn
  cases hs with
  | @draw t obj hc =>
    have hleft := (h.counted.ticket_left hc).1
    have hle := h.dequeued_le
    have hpush : ({ g with drawn := g.drawn ++ [(s.head, obj)] } : History α).waiting =
        g.waiting ++ [obj] := by
      unfold History.waiting
      rw [List.map_append, List.drop_append_of_le_length (by rw [hlen]; exact h.stored.taken_le)]
      rfl
    refine .inr ?_
    show FifoStep size g.waiting [.pushed obj]
      ({ g with drawn := g.drawn ++ [(s.head, obj)] } : History α).waiting
    rw [hpush]
    refine .push ?_
    have hpos := Nat.pos_of_neZero size
    rw [History.waiting, List.length_drop, hlen]
    omega
  | @take ret hc hslot hne =>
    rw [(h.served.idle hc).2] at hslot
    have hnext := (h.stored.next_taken h.window hslot hne).1
    have hget : (g.drawn.map Prod.snd)[g.taken.length]? = some ret := by
      rw [List.getElem?_map, hnext]
      rfl
    obtain ⟨hlt, heq⟩ := List.getElem?_eq_some_iff.mp hget
    have hpop : g.waiting = ret :: ({ g with taken := g.taken ++ [ret] } : History α).waiting := by
      unfold History.waiting
      rw [List.drop_eq_getElem_cons hlt, heq, List.length_append]
      rfl
    refine .inr ?_
    rw [hpop]
    exact .pop
  | _ => exact .inl ⟨rfl, rfl⟩

/-- **The queue is a bounded queue**: whatever the interleaving of fewer than `2 ^ 64` calls of
`enqueue`, its users see a list. -/
theorem refines_fifo (hr : Reach (machine T α size) tr s) (hfew : (history tr).called < 2 ^ 64) :
    Reach (fifo α size) (tr.filterMap Event.usage) (history tr).waiting := by
  refine Reach.invariant (I := fun tr _ => (history tr).called < 2 ^ 64 →
    Reach (fifo α size) (tr.filterMap Event.usage) (history tr).waiting) ?_ ?_ hr hfew
  · intro s _ _
    exact Reach.init rfl
  · intro tr es s s' hr ih hs hfew
    rw [history_append] at hfew ⊢
    rw [List.filterMap_append]
    have hfew' := Nat.lt_of_le_of_lt (called_le _ es) hfew
    rcases usage_step (inv_reach hr hfew') hs with ⟨hsame, hnone⟩ | hstep
    · rw [hsame, hnone, List.append_nil]
      exact ih hfew'
    · exact (ih hfew').step hstep

/-- Producer 1 gets the first ticket and comes last: its object is popped first. -/
theorem refines_fifo_two :
    ∃ (tr : List (Event Nat Nat)) (s : State Nat Nat 2), Reach (machine Nat Nat 2) tr s ∧
      tr.filterMap Event.usage = [.pushed 6, .pushed 5, .popped 6] ∧
      Reach (fifo Nat 2) [.pushed 6, .pushed 5, .popped 6] [5] := by
  have h₀ : Reach (machine Nat Nat 2) [] .initial := Reach.init rfl
  have h₁ := h₀.step (show Step _ [.called 0 5] _ from .reserve rfl (by decide) (by decide))
  have h₂ := h₁.step (show Step _ [.called 1 6] _ from .reserve rfl (by decide) (by decide))
  have h₃ := h₂.step (.draw (show State.pc _ 1 = .reserved 6 from rfl))
  have h₄ := h₃.step (.draw (show State.pc _ 0 = .reserved 5 from rfl))
  have h₅ := h₄.step (.store (show State.pc _ 0 = .ticketed 5 1 from rfl))
  have h₆ := h₅.step (.miss rfl rfl)
  have h₇ := h₆.step (.store (show State.pc _ 1 = .ticketed 6 0 from rfl))
  have h₈ := h₇.step (show Step _ [.taken 6] _ from .take rfl rfl (by decide))
  exact ⟨_, _, h₈, rfl, refines_fifo h₈ (by decide)⟩

end Fifo

end MPSCLockFreeQueue

end Tagaspi
