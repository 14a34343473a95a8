import Tagaspi.Lib.Liveness
import Tagaspi.MPSCLockFreeQueue

/-!
# Every object comes out of the queue

The consumer passes over nothing: while the producer of the next ticket has not exchanged its
object, `dequeue` returns 0 for as long as this takes, even if all the later objects are there.
Once the producer does exchange it, they can all be taken.

- `Next`: how far the next object is from being returned, and who makes the next move.
- `Advances`: a producer goes on, or the consumer does.
- `next_step`: what a step does to that.
- `object_returned`: under a fair scheduler every object with a ticket is returned in the end,
  in the order of the tickets.
-/

namespace Tagaspi

open Lts
open SpinLock (slot succSize)

namespace MPSCLockFreeQueue

section Progress

variable {T α : Type} {size : Nat} [NeZero size] [Zero α] {g : History α}
  {s s' : State T α size} {es : List (Event T α)}

/-! ## The next object -/

/-- `Next k i s`: the next object is `k` moves away from being returned, and `i` makes the next
one; `none` is the consumer. -/
inductive Next : Nat → Option T → State T α size → Prop where
  | advanced {ret : α} {s : State T α size} : s.consumer = .advanced ret → Next 1 none s
  | taken {ret : α} {s : State T α size} : s.consumer = .taken ret → Next 2 none s
  | stored {s : State T α size} : s.consumer = .idle → s.buffer s.tail ≠ 0 → Next 3 none s
  /-- The producer of the next ticket has not come yet. -/
  | ticketed {t : T} {obj : α} {head : Nat} {s : State T α size} :
      s.consumer = .idle → s.buffer s.tail = 0 → s.pc t = .ticketed obj head →
      slot size head = s.tail → Next 4 (some t) s

/-- If an object has not been returned, one is the next. -/
theorem Inv.next (h : Inv g s) (hlt : g.dequeued.length < s.head) :
    ∃ k i, Next k i s := by
  cases hc : s.consumer with
  | advanced ret => exact ⟨_, _, .advanced hc⟩
  | taken ret => exact ⟨_, _, .taken hc⟩
  | idle =>
    obtain ⟨htaken, htail⟩ := h.served.idle hc
    rw [← htaken] at hlt
    by_cases hslot : s.buffer s.tail = 0
    · obtain ⟨obj, hk⟩ := h.stored.drawn_lt hlt
      rcases h.stored.shown _ obj (Nat.le_refl _) hk with ⟨t, ht⟩ | hshown
      · exact ⟨_, _, .ticketed hc hslot ht htail.symm⟩
      · rw [← htail, hslot] at hshown
        exact absurd hshown.symm (h.stored.nonzero _ obj (List.mem_of_getElem? hk))
    · exact ⟨_, _, .stored hc hslot⟩

variable [DecidableEq T]

/-- A call of `enqueue` goes on, or the consumer takes, advances or returns. -/
def Advances : Option T → Action (State T α size) (Event T α)
  | none, s, es, s' => Step s es s' ∧ s'.consumer ≠ s.consumer
  | some t, s, es, s' => Step s es s' ∧ s.pc t ≠ .idle ∧ s'.pc t ≠ s.pc t

theorem next_enabled {k : Nat} {i : Option T} (hnext : Next k i s) : Enabled (Advances i) s := by
  cases hnext with
  | advanced hc => exact ⟨_, _, .giveBack hc, by simp [hc]⟩
  | taken hc => exact ⟨_, _, .advance hc, by simp [hc]⟩
  | stored hc hslot => exact ⟨_, _, .take hc rfl hslot, by simp [hc]⟩
  | @ticketed t obj head _ hc hslot ht htail =>
    refine ⟨_, _, .store ht, by simp [ht], ?_⟩
    show (s.goto t .idle).pc t ≠ _
    rw [pc_goto_self, ht]
    simp

/-- A producer that has no ticket changes nothing here. -/
theorem Next.goto {k : Nat} {i : Option T} {u : T} {c : Pc α} (hnext : Next k i s)
    (hold : ∀ obj head, s.pc u ≠ .ticketed obj head) (hpc : s'.pc = Function.update s.pc u c)
    (hconsumer : s'.consumer = s.consumer) (hbuffer : s'.buffer = s.buffer)
    (htail : s'.tail = s.tail) : Next k i s' ∧ ¬ Advances i s es s' := by
  cases hnext with
  | advanced hc => exact ⟨.advanced (hconsumer.trans hc), fun h => h.2 hconsumer⟩
  | taken hc => exact ⟨.taken (hconsumer.trans hc), fun h => h.2 hconsumer⟩
  | stored hc hslot =>
    refine ⟨.stored (hconsumer.trans hc) ?_, fun h => h.2 hconsumer⟩
    rwa [hbuffer, htail]
  | @ticketed t obj head _ hc hslot ht hhead =>
    have htu : t ≠ u := by
      rintro rfl
      exact hold obj head ht
    have hsame : s'.pc t = s.pc t := by
      rw [hpc]
      exact Function.update_of_ne htu ..
    refine ⟨.ticketed (hconsumer.trans hc) ?_ (hsame.trans ht) (hhead.trans htail.symm),
      fun h => h.2.2 hsame⟩
    rwa [hbuffer, htail]

/-- A producer exchanges its object: perhaps it is the next one. -/
theorem Next.store {k : Nat} {i : Option T} {u : T} {obj : α} {head : Nat} (h : Inv g s)
    (hnext : Next k i s) (hu : s.pc u = .ticketed obj head) :
    let s' : State T α size :=
      { s.goto u .idle with buffer := Function.update s.buffer (slot size head) obj }
    (∃ k' < k, ∃ i', Next k' i' s') ∨ (Next k i s' ∧ ¬ Advances i s es s') := by
  intro s'
  have hne : obj ≠ 0 :=
    h.stored.nonzero _ _ (List.mem_of_getElem? (h.stored.owner u obj head hu).2)
  have hself : slot size head = s.tail → s'.buffer s'.tail ≠ 0 := by
    intro heq
    show Function.update s.buffer (slot size head) obj s.tail ≠ 0
    rwa [heq, Function.update_self]
  have hother : slot size head ≠ s.tail → s'.buffer s'.tail = s.buffer s.tail := fun heq =>
    Function.update_of_ne heq.symm ..
  cases hnext with
  | advanced hc => exact .inr ⟨.advanced (s := s') hc, fun h => h.2 rfl⟩
  | taken hc => exact .inr ⟨.taken (s := s') hc, fun h => h.2 rfl⟩
  | stored hc hslot =>
    refine .inr ⟨.stored (s := s') hc ?_, fun h => h.2 rfl⟩
    by_cases heq : slot size head = s.tail
    · exact hself heq
    · rw [hother heq]
      exact hslot
  | @ticketed t obj' head' _ hc hslot ht htail =>
    by_cases heq : slot size head = s.tail
    · exact .inl ⟨3, by omega, none, .stored (s := s') hc (hself heq)⟩
    · have htu : t ≠ u := by
        rintro rfl
        obtain ⟨-, rfl⟩ := Pc.ticketed.inj (ht.symm.trans hu)
        exact heq htail
      have hsame : s'.pc t = s.pc t := Function.update_of_ne htu ..
      exact .inr ⟨.ticketed (s := s') hc ((hother heq).trans hslot) (hsame.trans ht) htail,
        fun h => h.2.2 hsame⟩

/-- **What a step does to the next object**: it is returned, or it comes nearer to that, or nothing
changes and whoever has to move has not moved. -/
theorem next_step (h : Inv g s) {k : Nat} {i : Option T} (hnext : Next k i s)
    (hs : Step s es s') :
    (∃ ret r, .dequeued ret r ∈ es) ∨ (∃ k' < k, ∃ i', Next k' i' s') ∨
      (Next k i s' ∧ ¬ Advances i s es s') := by
  cases hs with
  | reserve hc | overflow hc | backOff hc | draw hc =>
    exact .inr (.inr (hnext.goto (by simp [hc]) rfl rfl rfl rfl))
  | store hc => exact .inr (hnext.store h hc)
  | take hc hslot hne =>
    cases hnext with
    | advanced hc' | taken hc' => cases hc.symm.trans hc'
    | stored => exact .inr (.inl ⟨2, by omega, none, .taken rfl⟩)
    | ticketed _ hempty => exact absurd (hslot.symm.trans hempty) hne
  | miss hc hslot =>
    rw [miss_same hslot]
    cases hnext with
    | advanced hc' | taken hc' => cases hc.symm.trans hc'
    | stored _ hne => exact absurd hslot hne
    | ticketed hc hempty ht htail =>
      exact .inr (.inr ⟨.ticketed hc hempty ht htail, fun h => h.2.2 rfl⟩)
  | advance hc =>
    cases hnext with
    | taken => exact .inr (.inl ⟨1, by omega, none, .advanced rfl⟩)
    | advanced hc' | stored hc' | ticketed hc' => cases hc.symm.trans hc'
  | giveBack => exact .inl ⟨_, _, List.mem_singleton.mpr rfl⟩

/-- In a queue at rest nobody has to move. -/
theorem not_advances (hidle : ∀ t, s.pc t = .idle) (hc : s.consumer = .idle)
    (hempty : s.buffer s.tail = 0) (i : Option T) : ¬ Enabled (Advances i) s := by
  rintro ⟨es, s', hadv⟩
  cases i with
  | some t => exact hadv.2.1 (hidle t)
  | none =>
    obtain ⟨hs, hmoved⟩ := hadv
    cases hs with
    | take _ hslot hne => exact hne (hslot.symm.trans hempty)
    | advance hc' | giveBack hc' => cases hc.symm.trans hc'
    | reserve | overflow | backOff | draw | store | miss => exact hmoved rfl

/-- The next object is returned. -/
theorem ranking : Ranking (machine T α size) Advances (fun tr s => Inv (history tr) s)
    (fun es _ => ∃ ret r, .dequeued ret r ∈ es) Next where
  isStep i s es s' h := by
    cases i with
    | none => exact h.1
    | some t => exact h.1
  enabled _ _ _ _ _ hnext := next_enabled hnext
  step _ _ _ _ _ _ h _ hnext hs := next_step h hnext hs

end Progress

/-! ## All the objects -/

section Histories

variable {T α : Type} {tr tr' es : List (Event T α)}

/-- What has been drawn or returned remains so. -/
theorem foldl_grows (g : History α) (es : List (Event T α)) :
    g.drawn <+: (es.foldl History.next g).drawn ∧
      g.dequeued <+: (es.foldl History.next g).dequeued := by
  induction es generalizing g with
  | nil => exact ⟨List.prefix_refl _, List.prefix_refl _⟩
  | cons e es ih =>
    have hnext : g.drawn <+: (g.next e).drawn ∧ g.dequeued <+: (g.next e).dequeued := by
      cases e with
      | drawn => exact ⟨List.prefix_append .., List.prefix_refl _⟩
      | dequeued => exact ⟨List.prefix_refl _, List.prefix_append ..⟩
      | called | refused | stored | taken | missed =>
        exact ⟨List.prefix_refl _, List.prefix_refl _⟩
    exact ⟨hnext.1.trans (ih _).1, hnext.2.trans (ih _).2⟩

theorem history_grows (h : tr <+: tr') : (history tr).drawn <+: (history tr').drawn ∧
    (history tr).dequeued <+: (history tr').dequeued := by
  obtain ⟨es, rfl⟩ := h
  rw [history_append]
  exact foldl_grows _ es

/-- An object is returned. -/
theorem dequeued_lt (g : History α) {ret : α} {r : Nat} (hmem : .dequeued ret r ∈ es) :
    g.dequeued.length < (es.foldl History.next g).dequeued.length := by
  obtain ⟨before, after, rfl⟩ := List.append_of_mem hmem
  rw [List.foldl_append, List.foldl_cons]
  calc
    g.dequeued.length ≤ (before.foldl History.next g).dequeued.length :=
      (foldl_grows g before).2.length_le
    _ < ((before.foldl History.next g).next (.dequeued ret r : Event T α)).dequeued.length := by
      show _ < (_ ++ [ret]).length
      rw [List.length_append]
      exact Nat.lt_succ_self _
    _ ≤ _ := (foldl_grows _ after).2.length_le

end Histories

section Returned

variable {T α : Type} [DecidableEq T] {size : Nat} [NeZero size] [Zero α]

/-- With every object that is returned the turn of the `k`-th one comes nearer. -/
theorem returned_after (e : Execution (machine T α size)) (hfair : ∀ i, e.WeaklyFair (Advances i))
    (hI : ∀ n, Inv (history (e.trace n)) (e.state n)) (k j : Nat) :
    ∀ n, k < (history (e.trace n)).drawn.length →
      k < (history (e.trace n)).dequeued.length + j →
      ∃ m, n ≤ m ∧ k < (history (e.trace m)).dequeued.length := by
  induction j with
  | zero => exact fun n _ hj => ⟨n, Nat.le_refl n, hj⟩
  | succ j ih =>
    intro n hdrawn hj
    by_cases hlt : k < (history (e.trace n)).dequeued.length
    · exact ⟨n, Nat.le_refl n, hlt⟩
    rw [(hI n).stored.length_drawn] at hdrawn
    obtain ⟨l, i, hnext⟩ := (hI n).next (by omega)
    obtain ⟨m, hm, ret, r, hmem⟩ := ranking.reached e hfair (fun m _ => hI m) hnext
    have hbefore := history_grows (e.trace_prefix hm)
    have hstep := history_grows (e.trace_prefix (Nat.le_succ m))
    have hone : (history (e.trace m)).dequeued.length <
        (history (e.trace (m + 1))).dequeued.length := by
      show _ < (history (e.trace m ++ e.events m)).dequeued.length
      rw [history_append]
      exact dequeued_lt _ hmem
    rw [← (hI n).stored.length_drawn] at hdrawn
    obtain ⟨p, hp, hreturned⟩ := ih (m + 1)
      (Nat.lt_of_lt_of_le hdrawn (hbefore.1.trans hstep.1).length_le) (by
        have := hbefore.2.length_le
        omega)
    exact ⟨p, by omega, hreturned⟩

/-- **Every object comes out.** If every call of `enqueue` goes on when it can, and the consumer
takes what is in its slot, then an object with ticket `k` is returned in the end, as the `k`-th
object, however long the producers of the tickets before it take. `enqueue` is called fewer than
`2 ^ 64` times. -/
theorem object_returned (e : Execution (machine T α size))
    (hfair : ∀ i, e.WeaklyFair (Advances i))
    (hfew : ∀ n, (history (e.trace n)).called < 2 ^ 64) {n k : Nat} {obj : α}
    (hdrawn : (history (e.trace n)).drawn[k]? = some (k, obj)) :
    ∃ m, n ≤ m ∧ (history (e.trace m)).dequeued[k]? = some obj := by
  have hI : ∀ m, Inv (history (e.trace m)) (e.state m) := fun m => inv_reach (e.reach m) (hfew m)
  obtain ⟨hlt, hk⟩ := List.getElem?_eq_some_iff.mp hdrawn
  obtain ⟨m, hm, hreturned⟩ := returned_after e hfair hI k (k + 1) n hlt (by omega)
  refine ⟨m, hm, ?_⟩
  have hlater := (history_grows (e.trace_prefix hm)).1
  have hdrawn' : (history (e.trace m)).drawn[k]? = some (k, obj) := by
    rw [List.prefix_iff_getElem?.mp hlater k hlt, hk]
  -- what is returned was taken, and what is taken was drawn
  have hprefix := (hI m).served.dequeued_prefix.trans (hI m).stored.taken
  have hreturn := List.prefix_iff_getElem?.mp hprefix k hreturned
  rw [List.getElem?_map, hdrawn'] at hreturn
  rw [List.getElem?_eq_getElem hreturned, ← hreturn]
  rfl

/-- Producer 1 has the first ticket and comes last: the object of producer 0 waits in its slot,
and `dequeue` returns 0. -/
theorem object_returned_two :
    ∃ (e : Execution (machine (Fin 2) Nat 2)) (n m : Nat),
      (history (e.trace n)).drawn[1]? = some (1, 5) ∧ (e.state n).buffer 1 = 5 ∧
      (history (e.trace n)).dequeued = [] ∧ n ≤ m ∧
      (history (e.trace m)).dequeued[1]? = some 5 := by
  have h₀ : Reach (machine (Fin 2) Nat 2) [] .initial := Reach.init rfl
  have h₁ := h₀.step (show Step _ [.called 0 5] _ from .reserve rfl (by decide) (by decide))
  have h₂ := h₁.step (show Step _ [.called 1 6] _ from .reserve rfl (by decide) (by decide))
  have h₃ := h₂.step (.draw (show State.pc _ 1 = .reserved 6 from rfl))
  have h₄ := h₃.step (.draw (show State.pc _ 0 = .reserved 5 from rfl))
  have h₅ := h₄.step (.store (show State.pc _ 0 = .ticketed 5 1 from rfl))
  have h₆ := h₅.step (.miss rfl rfl)
  have k₁ := h₆.stay.step (Step.store (show State.pc _ 1 = .ticketed 6 0 from rfl))
  have k₂ := k₁.step (show Step _ [.taken 6] _ from .take rfl rfl (by decide))
  have k₃ := k₂.step (Step.advance rfl)
  have k₄ := k₃.step (Step.giveBack rfl)
  have k₅ := k₄.step (show Step _ [.taken 5] _ from .take rfl rfl (by decide))
  have k₆ := k₅.step (Step.advance rfl)
  have k₇ := k₆.step (Step.giveBack rfl)
  obtain ⟨e, n, N, -, hstart, hstate, hend, htrace⟩ := h₆.execution_through k₇
  have hfew : ∀ m, (history (e.trace m)).called < 2 ^ 64 := fun m => by
    obtain ⟨l, hl⟩ := hend.trace_prefix m
    have hle := called_le (history (e.trace m)) l
    rw [← history_append, hl, htrace] at hle
    exact Nat.lt_of_le_of_lt hle (by decide)
  have hfair : ∀ i, e.WeaklyFair (Advances i) := fun i =>
    hend.weaklyFair (not_advances (fun t => by match t with | 0 | 1 => rfl) rfl rfl i)
  have hdrawn : (history (e.trace n)).drawn[1]? = some (1, 5) := by
    rw [hstart]
    rfl
  obtain ⟨m, hm, hreturned⟩ := object_returned e hfair hfew hdrawn
  exact ⟨e, n, m, hdrawn, by rw [hstate]; rfl, by rw [hstart]; rfl, hm, hreturned⟩

end Returned

end MPSCLockFreeQueue

end Tagaspi
