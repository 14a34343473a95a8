import Tagaspi.Notifications.Model
import Tagaspi.SpinLock

/-!
# The queue of new ranges (`WaitingRangeQueue.hpp`)

`Notifications.Model` appends a range to the queue of its segment in one step. The code has a
queue for one producer and one consumer in that place: two threads in `push` at a time break
it. `enqueue` calls `push` under a spin lock, again and again while the queue is full; the
poller, the only caller of `dequeueAll`, takes the ranges without the lock.

- `own`, `client`: the queue under any number of threads. What the queue holds is arbitrary
  after two threads were in `push` at once.
- `Inv`: where the ranges are.
- `enqueue_in_order`: over the spin lock, every range goes through the queue once, in the order
  of the tickets.
-/

namespace Tagaspi

open Lts

namespace WaitingRangeQueue

/-- Where a thread stands. -/
inductive Pc (α : Type) where
  | idle
  /-- It has called `enqueue`. -/
  | locking (waitingRange : α)
  /-- It has the lock. -/
  | locked (waitingRange : α)
  /-- It is in `_queue.push`. -/
  | pushing (waitingRange : α)
  /-- `push` has returned `true`. -/
  | pushed
  /-- It is in `_queue.consume_all`. -/
  | consuming
deriving DecidableEq, Repr

structure State (T α : Type) where
  pc : T → Pc α
  queue : List α
  /-- The ranges that `consume_all` has read, and whose room `push` cannot use yet. -/
  consumed : Nat

inductive Event (T α : Type) where
  /-- `t` calls `enqueue`. -/
  | called (t : T) (waitingRange : α)
  /-- The range is in the queue. -/
  | pushed (t : T) (waitingRange : α)
  /-- `dequeueAll` adds the range to the pending ones. -/
  | added (range : α)
deriving DecidableEq, Repr

section Client

variable {T α : Type} [DecidableEq T]

def State.goto (s : State T α) (t : T) (c : Pc α) : State T α :=
  { s with pc := Function.update s.pc t c }

theorem pc_goto_self {s : State T α} {t : T} {c : Pc α} : (s.goto t c).pc t = c :=
  Function.update_self ..

theorem pc_goto_of_ne {s : State T α} {t u : T} {c : Pc α} (hu : u ≠ t) :
    (s.goto t c).pc u = s.pc u := Function.update_of_ne hu ..

/-- The thread is between the return of `lock` and the call of `unlock`. -/
def Pc.inside : Pc α → Bool
  | .locked _ | .pushing _ => true
  | .idle | .locking _ | .pushed | .consuming => false

/-- The range that the thread has still to push. -/
def Pc.pending : Pc α → List α
  | .locking x | .locked x | .pushing x => [x]
  | .idle | .pushed | .consuming => []

/-- A step of thread `t` that does not take the lock. -/
inductive Own (t : T) : State T α → List (Event T α) → State T α → Prop where
  -- enqueue
  | call {s : State T α} {x : α} :
      s.pc t = .idle → Own t s [.called t x] (s.goto t (.locking x))
  | push {s : State T α} {x : α} :
      s.pc t = .locked x → Own t s [] (s.goto t (.pushing x))
  | full {s : State T α} {x : α} :
      s.pc t = .pushing x → wrQueueCapacity ≤ s.queue.length + s.consumed →
      Own t s [] (s.goto t (.locked x))
  | store {s : State T α} {x : α} :
      s.pc t = .pushing x → s.queue.length + s.consumed < wrQueueCapacity →
      Own t s [.pushed t x] { s.goto t .pushed with queue := s.queue ++ [x] }
  /-- A second thread is in `push`. -/
  | race {s : State T α} {u : T} {x y : α} {queue : List α} :
      s.pc t = .pushing x → s.pc u = .pushing y → u ≠ t → Own t s [] { s with queue := queue }
  | finish {s : State T α} : s.pc t = .pushed → Own t s [] (s.goto t .idle)
  -- dequeueAll
  | empty {s : State T α} : s.pc t = .idle → s.queue = [] → Own t s [] s
  | consume {s : State T α} :
      s.pc t = .idle → (∀ u, s.pc u ≠ .consuming) → s.queue ≠ [] →
      Own t s [] (s.goto t .consuming)
  | add {s : State T α} {x : α} {rest : List α} :
      s.pc t = .consuming → s.queue = x :: rest →
      Own t s [.added x] { s with queue := rest, consumed := s.consumed + 1 }
  | consumeEnd {s : State T α} :
      s.pc t = .consuming → 0 < s.consumed → Own t s [] { s.goto t .idle with consumed := 0 }

variable (T α) in
/-- The queue, as any number of threads use it. -/
def client : Client T (State T α) (Event T α) where
  init s := (∀ t, s.pc t = .idle) ∧ s.queue = [] ∧ s.consumed = 0
  locked s t := (s.pc t).inside = true
  wants s t := ∃ x, s.pc t = .locking x
  enter t s es s' := ∃ x, s.pc t = .locking x ∧ es = [] ∧ s' = s.goto t (.locked x)
  own := Own
  init_unlocked hi := by simp [hi.1, Pc.inside]
  enter_locked := by
    rintro s s' t u es ⟨x, -, -, rfl⟩ hu
    by_cases hut : u = t
    · exact .inl hut
    · exact .inr (by rwa [pc_goto_of_ne hut] at hu)
  own_locked := by
    intro s s' t u es hs hu
    by_cases hut : u = t
    · subst hut
      cases hs with
      | push hc | full hc => simp [hc, Pc.inside]
      | call | store | finish | consume | consumeEnd =>
        exact absurd (show (Function.update s.pc u _ u).inside = true from hu)
          (by rw [Function.update_self]; simp [Pc.inside])
      | race | empty | add => exact hu
    · cases hs with
      | race | empty | add => exact hu
      | push | full | call | store | finish | consume | consumeEnd =>
        exact (congrArg Pc.inside (Function.update_of_ne hut ..)).symm.trans hu

end Client

/-! ## What goes through the queue -/

section Traces

variable {T α : Type} [DecidableEq T]

/-- The ranges with which `t` has called `enqueue`. -/
def calledBy (t : T) (tr : List (Event T α)) : List α :=
  tr.filterMap fun
    | .called u x => if u = t then some x else none
    | .pushed .. | .added _ => none

/-- The ranges that `t` has put into the queue. -/
def pushedBy (t : T) (tr : List (Event T α)) : List α :=
  tr.filterMap fun
    | .pushed u x => if u = t then some x else none
    | .called .. | .added _ => none

omit [DecidableEq T] in
/-- The ranges that were put into the queue, with the threads that did it. -/
def pushed (tr : List (Event T α)) : List (T × α) :=
  tr.filterMap fun
    | .pushed t x => some (t, x)
    | .called .. | .added _ => none

omit [DecidableEq T] in
/-- The ranges that have left the queue. -/
def added (tr : List (Event T α)) : List α :=
  tr.filterMap fun
    | .added x => some x
    | .called .. | .pushed .. => none

variable (tr es : List (Event T α))

@[simp] theorem calledBy_append (t : T) :
    calledBy t (tr ++ es) = calledBy t tr ++ calledBy t es := List.filterMap_append

@[simp] theorem pushedBy_append (t : T) :
    pushedBy t (tr ++ es) = pushedBy t tr ++ pushedBy t es := List.filterMap_append

omit [DecidableEq T] in
@[simp] theorem pushed_append : pushed (tr ++ es) = pushed tr ++ pushed es :=
  List.filterMap_append

omit [DecidableEq T] in
@[simp] theorem added_append : added (tr ++ es) = added tr ++ added es := List.filterMap_append

end Traces

section Invariant

variable {T α : Type} [DecidableEq T] {tr es : List (Event T α)} {s s' : State T α}

/-- **Where the ranges are.** -/
structure Inv (tr : List (Event T α)) (s : State T α) : Prop where
  /-- The queue is first in, first out. -/
  ranges : (pushed tr).map Prod.snd = added tr ++ s.queue
  room : s.queue.length + s.consumed ≤ wrQueueCapacity
  /-- A call puts its range into the queue once. -/
  calls : ∀ t, calledBy t tr = pushedBy t tr ++ (s.pc t).pending

theorem calls_goto {t : T} {c c' : Pc α}
    (h : ∀ u, calledBy u tr = pushedBy u tr ++ (s.pc u).pending) (hc : s.pc t = c)
    (hpc : s'.pc = (s.goto t c').pc)
    (ht : c.pending ++ calledBy t es = pushedBy t es ++ c'.pending)
    (hothers : ∀ u, u ≠ t → calledBy u es = [] ∧ pushedBy u es = []) (u : T) :
    calledBy u (tr ++ es) = pushedBy u (tr ++ es) ++ (s'.pc u).pending := by
  rw [calledBy_append, pushedBy_append]
  by_cases hu : u = t
  · subst hu
    rw [h u, hc, hpc, pc_goto_self, List.append_assoc, ht, List.append_assoc]
  · rw [(hothers u hu).1, (hothers u hu).2, h u, hpc, pc_goto_of_ne hu, List.append_nil,
      List.append_nil]

/-- A step that moves a thread, and neither calls, nor touches the queue. -/
theorem Inv.goto (h : Inv tr s) {t : T} {c c' : Pc α} (hc : s.pc t = c)
    (hpending : c.pending = c'.pending) : Inv (tr ++ []) (s.goto t c') where
  ranges := by
    rw [List.append_nil]
    exact h.ranges
  room := h.room
  calls := calls_goto h.calls hc rfl (by simpa [calledBy, pushedBy] using hpending)
    fun _ _ => ⟨rfl, rfl⟩

theorem inv_step (h : Inv tr s) (hs : (client T α).ideal.step s es s')
    (hunique : ∀ t u, (s.pc t).inside = true → (s.pc u).inside = true → t = u) :
    Inv (tr ++ es) s' := by
  cases hs with
  | @enter t _ _ _ henter _ =>
    obtain ⟨x, hc, rfl, rfl⟩ := henter
    exact h.goto hc rfl
  | @own t _ _ _ hown =>
    cases hown with
    | call hc =>
      refine ⟨?_, h.room, calls_goto h.calls hc rfl (by simp [calledBy, pushedBy, Pc.pending]) ?_⟩
      · rw [pushed_append, added_append, List.map_append, h.ranges]
        simp [pushed, added, State.goto]
      · exact fun u hu => ⟨by simp [calledBy, Ne.symm hu], rfl⟩
    | push hc | full hc | consume hc => exact h.goto hc rfl
    | finish hc => exact h.goto hc rfl
    | @store x hc hroom =>
      refine ⟨?_, ?_, calls_goto h.calls hc rfl (by simp [calledBy, pushedBy, Pc.pending]) ?_⟩
      · rw [pushed_append, added_append, List.map_append, h.ranges]
        simp [pushed, added]
      · show (s.queue ++ [x]).length + s.consumed ≤ wrQueueCapacity
        rw [List.length_append, List.length_singleton]
        omega
      · exact fun u hu => ⟨rfl, by simp [pushedBy, Ne.symm hu]⟩
    | race hc hu hne =>
      exact absurd (hunique _ _ (by rw [hu]; rfl) (by rw [hc]; rfl)) hne
    | empty =>
      rw [List.append_nil]
      exact h
    | @add x rest hc hqueue =>
      have hroom := h.room
      rw [hqueue] at hroom
      refine ⟨?_, ?_, ?_⟩
      · rw [pushed_append, added_append, List.map_append, h.ranges, hqueue]
        simp [pushed, added]
      · simp only [List.length_cons] at hroom ⊢
        omega
      · intro u
        rw [calledBy_append, pushedBy_append, h.calls u]
        simp [calledBy, pushedBy]
    | consumeEnd hc =>
      have hgoto : Inv (tr ++ []) (s.goto t .idle) := h.goto hc rfl
      exact ⟨hgoto.ranges, Nat.le_trans (Nat.le_add_right ..) h.room, hgoto.calls⟩

theorem inv_ideal (hr : Reach (client T α).ideal tr s) : Inv tr s := by
  refine hr.invariant (fun s hi => ?_) fun tr es s s' hr h hs =>
    inv_step h hs fun t u => Client.ideal_unique hr
  obtain ⟨hpc, hqueue, hconsumed⟩ := hi
  exact ⟨by rw [hqueue]; rfl, by rw [hqueue, hconsumed]; exact Nat.zero_le _,
    fun t => by rw [hpc t]; rfl⟩

end Invariant

/-! ## Over the spin lock -/

section Order

open SpinLock (entered drawn)

variable {T α : Type} [DecidableEq T] {size : Nat} [NeZero size]

/-- What a step does to the critical sections. -/
theorem Own.inside {t : T} {s s' : State T α} {es : List (Event T α)} (hs : Own t s es s') :
    (pushed es = [] ∧ ∀ u, (s'.pc u).inside = (s.pc u).inside) ∨
    (pushed es).map Prod.fst = [t] ∧ (s.pc t).inside = true ∧ s'.pc = (s.goto t .pushed).pc := by
  have same : ∀ {c : Pc α}, (s.pc t).inside = c.inside → ∀ u,
      ((s.goto t c).pc u).inside = (s.pc u).inside := by
    intro c hc u
    by_cases hu : u = t
    · subst hu
      rw [pc_goto_self, hc]
    · rw [pc_goto_of_ne hu]
  cases hs with
  | call hc | push hc | full hc | finish hc | consume hc | consumeEnd hc =>
    exact .inl ⟨rfl, same (by rw [hc]; rfl)⟩
  | store hc => exact .inr ⟨rfl, by rw [hc]; rfl, rfl⟩
  | race | empty | add => exact .inl ⟨rfl, fun _ => rfl⟩

/-- The threads push in the order in which they get the lock. -/
structure Line (tr : List (SpinLock.Event T ⊕ Event T α)) (s : State T α) : Prop where
  held : ∀ t, (s.pc t).inside = true →
    (entered (lockTrace tr)).map Prod.fst = (pushed (clientTrace tr)).map Prod.fst ++ [t]
  free : (∀ t, (s.pc t).inside = false) →
    (entered (lockTrace tr)).map Prod.fst = (pushed (clientTrace tr)).map Prod.fst

theorem Line.own {tr : List (SpinLock.Event T ⊕ Event T α)} {s s' : State T α} (h : Line tr s)
    {t : T} {es : List (Event T α)} (hs : Own t s es s')
    (hunique : ∀ t u, (s.pc t).inside = true → (s.pc u).inside = true → t = u) :
    Line (tr ++ es.map .inr) s' := by
  rcases hs.inside with ⟨hes, hsame⟩ | ⟨hes, ht, hpc⟩
  · constructor
    · intro u hu
      rw [hsame u] at hu
      simpa [hes] using h.held u hu
    · intro hnone
      simpa [hes] using h.free fun u => (hsame u).symm.trans (hnone u)
  · have hnone : ∀ u, (s'.pc u).inside = false := by
      intro u
      rw [hpc]
      by_cases hut : u = t
      · rw [hut, pc_goto_self]
        rfl
      · rw [pc_goto_of_ne hut]
        exact Bool.eq_false_of_not_eq_true fun hu => hut (hunique u t hu ht)
    exact ⟨fun u hu => absurd ((hnone u).symm.trans hu) Bool.false_ne_true,
      fun _ => by simpa [hes] using h.held t ht⟩

theorem line_reach {tr : List (SpinLock.Event T ⊕ Event T α)}
    {c : SpinLock.State T size × State T α}
    (hr : Reach ((client T α).behind (SpinLock.lock T size)) tr c)
    (hfew : (drawn (lockTrace tr)).length < 2 ^ 64) : Line tr c.2 := by
  refine hr.invariant (I := fun tr c => (drawn (lockTrace tr)).length < 2 ^ 64 → Line tr c.2)
    ?_ ?_ hfew
  · exact fun c hi _ => ⟨fun t ht => absurd ht ((client T α).init_unlocked hi.2), fun _ => rfl⟩
  · intro tr es c c' hr ih hs hfew
    have hlock := Client.lock_reach (hr.step hs)
    have hfew₀ : (drawn (lockTrace tr)).length < 2 ^ 64 := by
      rw [lockTrace_append, SpinLock.drawn_append, List.length_append] at hfew
      omega
    have h := ih hfew₀
    obtain ⟨hideal, hin⟩ := Client.refines SpinLock.excludes hr hfew₀
    cases hs with
    | lock hl hquiet _ _ =>
      have hes := (SpinLock.lock_entered hl).2 hquiet
      constructor
      · intro u hu
        simpa [SpinLock.entered_append, hes] using h.held u hu
      · intro hnone
        simpa [SpinLock.entered_append, hes] using h.free hnone
    | @enter t _ _ _ _ _ _ hl hout hentered henter =>
      have hnone := Client.free_of_enter SpinLock.excludes hin hlock hfew hl hout hentered
      have hes := (SpinLock.lock_entered hl).1 hentered hout
      obtain ⟨x, -, rfl, rfl⟩ := henter
      have hfree := h.free fun u => Bool.eq_false_of_not_eq_true (hnone u)
      constructor
      · intro u hu
        obtain rfl : u = t := by
          by_contra hut
          exact hnone u (by rwa [pc_goto_of_ne hut] at hu)
        simp [SpinLock.entered_append, hes, hfree]
      · intro hnone'
        have := hnone' t
        rw [pc_goto_self] at this
        cases this
    | own hown _ => exact h.own hown fun t u => Client.ideal_unique hideal

/-- **The queue of new ranges works.** Any number of threads call `enqueue`, over a spin lock that
draws fewer than `2 ^ 64` tickets, while the poller takes ranges out. One thread at a time is
in `push`. The ranges leave the queue in the order in which they were pushed, none twice and
none lost; the threads push in the order of their tickets; every call pushes its own range,
once, before it returns; and there is room for all that the queue holds. -/
theorem enqueue_in_order {tr : List (SpinLock.Event T ⊕ Event T α)}
    {c : SpinLock.State T size × State T α}
    (hr : Reach ((client T α).behind (SpinLock.lock T size)) tr c)
    (hfew : (drawn (lockTrace tr)).length < 2 ^ 64) :
    (∀ t u x y, c.2.pc t = .pushing x → c.2.pc u = .pushing y → t = u) ∧
    (pushed (clientTrace tr)).map Prod.snd = added (clientTrace tr) ++ c.2.queue ∧
    (pushed (clientTrace tr)).map Prod.fst <+: (drawn (lockTrace tr)).map Prod.fst ∧
    (∀ t, calledBy t (clientTrace tr) = pushedBy t (clientTrace tr) ++ (c.2.pc t).pending) ∧
    c.2.queue.length + c.2.consumed ≤ wrQueueCapacity := by
  obtain ⟨hideal, -⟩ := Client.refines SpinLock.excludes hr hfew
  have hinv := inv_ideal hideal
  have hline := line_reach hr hfew
  refine ⟨fun t u x y ht hu => ?_, hinv.ranges, ?_, hinv.calls, hinv.room⟩
  · exact Client.ideal_unique hideal (show (c.2.pc t).inside = true by rw [ht]; rfl)
      (show (c.2.pc u).inside = true by rw [hu]; rfl)
  · -- the thread in its critical section has not pushed yet
    have hentered : (pushed (clientTrace tr)).map Prod.fst <+:
        (entered (lockTrace tr)).map Prod.fst := by
      by_cases hheld : ∃ t, (c.2.pc t).inside = true
      · obtain ⟨t, ht⟩ := hheld
        exact ⟨[t], (hline.held t ht).symm⟩
      · rw [hline.free fun t => Bool.eq_false_of_not_eq_true fun ht => hheld ⟨t, ht⟩]
    have hlock := SpinLock.inv_reach (SpinLock.lock_machine (Client.lock_reach hr)) hfew
    exact hentered.trans (hlock.entered_in_order.map Prod.fst)

/-- Thread 0 calls first and thread 1 draws first. The range of thread 1 has left the queue. -/
theorem enqueue_in_order_two :
    ∃ (tr : List (SpinLock.Event Nat ⊕ Event Nat Nat)) (c : SpinLock.State Nat 2 × State Nat Nat),
      Reach ((client Nat Nat).behind (SpinLock.lock Nat 2)) tr c ∧
      (drawn (lockTrace tr)).map Prod.fst = [1, 0] ∧ c.2.pc 0 = .pushed ∧
      (pushed (clientTrace tr)).map Prod.snd = added (clientTrace tr) ++ c.2.queue ∧
      added (clientTrace tr) = [7] ∧ calledBy 0 (clientTrace tr) = [5] ∧
      calledBy 0 (clientTrace tr) = pushedBy 0 (clientTrace tr) ++ [] := by
  have h₀ : Reach ((client Nat Nat).behind (SpinLock.lock Nat 2)) []
      (.initial, ⟨fun _ => .idle, [], 0⟩) := Reach.init ⟨rfl, fun _ => rfl, rfl, rfl⟩
  -- both threads call `enqueue`, and draw their tickets
  have h₁ := h₀.step (.own (t := 0) (Own.call (x := 5) rfl) (.inl rfl))
  have h₂ := h₁.step (.own (t := 1) (Own.call (x := 7) rfl) (.inl rfl))
  have h₃ := SpinLock.over_draw h₂ (t := 1) rfl ⟨7, rfl⟩
  have h₄ := SpinLock.over_draw h₃ (t := 0) rfl ⟨5, rfl⟩
  -- thread 1 pushes its range
  have h₅ := SpinLock.over_enter h₄ (t := 1) rfl rfl ⟨7, rfl, rfl, rfl⟩
  have h₆ := h₅.step (.own (t := 1) (Own.push rfl) (.inr ⟨rfl, rfl⟩))
  have h₇ := h₆.step (.own (t := 1) (Own.store rfl (by decide)) (.inr ⟨rfl, rfl⟩))
  obtain ⟨k, h₈, hpc, -, -, hbuffer⟩ := SpinLock.over_unlock h₇ (t := 1) rfl Bool.false_ne_true
  -- then thread 0
  have hspin : k.pc 0 = .spinning 1 := by
    rw [hpc]
    rfl
  have h₉ := SpinLock.over_enter h₈ hspin (by rw [hbuffer]; rfl) ⟨5, rfl, rfl, rfl⟩
  have hin : ((k.goto 0 .holding).pc 0).phase = .inside := by
    rw [SpinLock.pc_goto_self]
    rfl
  have h₁₀ := h₉.step (.own (t := 0) (Own.push rfl) (.inr ⟨hin, rfl⟩))
  have h₁₁ := h₁₀.step (.own (t := 0) (Own.store rfl (by decide)) (.inr ⟨hin, rfl⟩))
  -- and the poller takes a range
  have hout : ((k.goto 0 .holding).pc 2).phase = .outside := by
    rw [SpinLock.pc_goto_of_ne (by decide), hpc]
    rfl
  have h₁₂ := h₁₁.step (.own (t := 2) (Own.consume rfl (fun u => by
    simp only [State.goto]
    by_cases h0 : u = 0
    · simp [h0]
    · by_cases h1 : u = 1 <;> simp [h0, h1]) (by decide)) (.inl hout))
  have h₁₃ := h₁₂.step (.own (t := 2) (Own.add rfl rfl) (.inl hout))
  obtain ⟨-, hranges, -, hcalls, -⟩ := enqueue_in_order h₁₃ (by decide)
  exact ⟨_, _, h₁₃, rfl, rfl, hranges, rfl, rfl, hcalls 0⟩

end Order

end WaitingRangeQueue

end Tagaspi
