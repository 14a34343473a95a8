import Tagaspi.Lib.Lts
import Tagaspi.QueueGroups.Distribution

/-!
# The table of queue groups (`QueueGroups.cpp`)

`tagaspi_queue_group_create` and `_delete` work on the table under a lock;
`_get_queue` reads it without one. A step is one access to the table, to a group
object or to its counter; creating a group is one step from the lock to the
return, since nobody sees the object before it is in the table.

A group that is deleted while a call still uses it is a use after free; such a call
takes no further step here.

- `Step`, `machine`: the calls of any number of threads.
- `groupOf id tr`: the arguments with which the current group `id` was created.
- `inv_reach`: a call that can go on works on the object of the current group.
-/

namespace Tagaspi

open Lts Loops

namespace Groups

/-- `Environment::MaxQueueGroups`. -/
def maxQueueGroups : Nat := 16

/-- Where a call stands. -/
inductive Call where
  | idle
  /-- `create` has the lock. -/
  | creating (id first num : Nat) (policy : Policy)
  /-- `delete` has the lock. -/
  | deleting (id : Nat)
  /-- `delete` has deleted the object and not yet cleared the entry. -/
  | deleted (id : Nat)
  /-- `get_queue` has read the entry and entered `getQueue` of object `p`. -/
  | found (id p : Nat)
  /-- `getQueue` has loaded the counter. -/
  | loaded (id p offset : Nat)
deriving DecidableEq, Repr

structure State where
  queueGroups : Nat → Option Nat
  numQueueGroups : Nat
  /-- The thread that holds `queueGroupsLock`. -/
  lock : Option Nat
  /-- The heap: object `p` is the `p`-th group created. -/
  objects : Nat → Option QueueGroup
  next : Nat
  call : Nat → Call

inductive Event where
  | created (t id first num : Nat) (policy : Policy)
  | deleted (t id : Nat)
  /-- `get_queue` returns `q`. -/
  | got (t id q : Nat)
  /-- The call on `id` returns `GASPI_ERROR`. -/
  | error (t id : Nat)
deriving DecidableEq, Repr

/-- Thread `t` goes on at `c`. -/
def State.goto (s : State) (t : Nat) (c : Call) : State :=
  { s with call := Function.update s.call t c }

/-- Thread `t` releases the lock and returns. -/
def State.unlock (s : State) (t : Nat) : State := { s.goto t .idle with lock := none }

/-- One atomic step on a node with hardware `topo`, as `h` describes it. -/
inductive Step (cfg : Limits) (topo : Topology) (h : HardwareInfo) :
    State → List Event → State → Prop where
  -- tagaspi_queue_group_create
  | createLock {s : State} {t id first num : Nat} {policy : Policy} :
      s.call t = .idle → s.lock = none → id < maxQueueGroups → 0 < num →
      first + num ≤ cfg.maxQueues →
      Step cfg topo h s [] { s.goto t (.creating id first num policy) with lock := some t }
  | createFull {s : State} {t id first num : Nat} {policy : Policy} :
      s.call t = .creating id first num policy → maxQueueGroups ≤ s.numQueueGroups →
      Step cfg topo h s [.error t id] (s.unlock t)
  | createExists {s : State} {t id first num p : Nat} {policy : Policy} :
      s.call t = .creating id first num policy → s.numQueueGroups < maxQueueGroups →
      s.queueGroups id = some p →
      Step cfg topo h s [.error t id] (s.unlock t)
  | createInvalid {s : State} {t id first num : Nat} {policy : Policy} :
      s.call t = .creating id first num policy → s.numQueueGroups < maxQueueGroups →
      s.queueGroups id = none → policy.isValidPolicy = false →
      Step cfg topo h s [.error t id] (s.unlock t)
  | createDone {s : State} {t id first num fuel : Nat} {policy : Policy}
      {garbage : Nat → QueueRange} {data : GroupData} :
      s.call t = .creating id first num policy → s.numQueueGroups < maxQueueGroups →
      s.queueGroups id = none → policy.isValidPolicy = true →
      setupPolicy cfg.queueBits fuel h garbage first num policy = .ok data →
      Step cfg topo h s [.created t id first num policy]
        { s.unlock t with
          objects := Function.update s.objects s.next (some ⟨first, num, policy, data⟩)
          next := s.next + 1
          queueGroups := Function.update s.queueGroups id (some s.next)
          numQueueGroups := s.numQueueGroups + 1 }
  -- tagaspi_queue_group_delete
  | deleteLock {s : State} {t id : Nat} :
      s.call t = .idle → s.lock = none → id < maxQueueGroups →
      Step cfg topo h s [] { s.goto t (.deleting id) with lock := some t }
  | deleteMissing {s : State} {t id : Nat} :
      s.call t = .deleting id → s.queueGroups id = none →
      Step cfg topo h s [.error t id] (s.unlock t)
  | deleteObject {s : State} {t id p : Nat} :
      s.call t = .deleting id → s.queueGroups id = some p →
      Step cfg topo h s []
        { s.goto t (.deleted id) with objects := Function.update s.objects p none }
  | deleteDone {s : State} {t id : Nat} :
      s.call t = .deleted id →
      Step cfg topo h s [.deleted t id]
        { s.unlock t with
          queueGroups := Function.update s.queueGroups id none
          numQueueGroups := predNumber s.numQueueGroups }
  -- tagaspi_queue_group_get_queue
  | getMissing {s : State} {t id : Nat} :
      s.call t = .idle → id < maxQueueGroups → s.queueGroups id = none →
      Step cfg topo h s [.error t id] s
  | getFound {s : State} {t id p : Nat} :
      s.call t = .idle → id < maxQueueGroups → s.queueGroups id = some p →
      Step cfg topo h s [] (s.goto t (.found id p))
  -- QueueGroup::getQueue
  | getOnly {s : State} {t id p : Nat} {g : QueueGroup} :
      s.call t = .found id p → s.objects p = some g → g.policy = .default → ¬ 1 < g.numQueues →
      Step cfg topo h s [.got t id g.firstQueue] (s.goto t .idle)
  | getLoad {s : State} {t id p offset : Nat} {g : QueueGroup} :
      s.call t = .found id p → s.objects p = some g → g.policy = .default → 1 < g.numQueues →
      g.data = .counter offset →
      Step cfg topo h s [] (s.goto t (.loaded id p offset))
  /-- The exchange succeeds. -/
  | getSwap {s : State} {t id p offset : Nat} {g : QueueGroup} :
      s.call t = .loaded id p offset → s.objects p = some g → g.data = .counter offset →
      Step cfg topo h s [.got t id ((g.firstQueue + offset) % 2 ^ cfg.queueBits)]
        { s.goto t .idle with
          objects := Function.update s.objects p
            (some { g with data := .counter (g.nextOffset offset) }) }
  /-- Another thread has changed the counter. -/
  | getLost {s : State} {t id p offset value : Nat} {g : QueueGroup} :
      s.call t = .loaded id p offset → s.objects p = some g → g.data = .counter value →
      value ≠ offset →
      Step cfg topo h s [.got t id ((g.firstQueue + offset) % 2 ^ cfg.queueBits)] (s.goto t .idle)
  /-- The thread runs on `cpu`. -/
  | getCPU {s : State} {t id p cpu q : Nat} {g : QueueGroup} {table : List Nat} :
      s.call t = .found id p → s.objects p = some g → g.policy ≠ .default →
      g.data = .queues table → topo.available cpu → table[cpu]? = some q →
      Step cfg topo h s [.got t id q] (s.goto t .idle)

/-- After `Environment::initialize`: no group, no call. -/
def State.initial : State where
  queueGroups _ := none
  numQueueGroups := 0
  lock := none
  objects _ := none
  next := 0
  call _ := .idle

/-- The queue groups, as any number of threads use them. -/
def machine (cfg : Limits) (topo : Topology) (h : HardwareInfo) : System State Event where
  init := (· = .initial)
  step := Step cfg topo h

/-! ## Which group an id stands for -/

/-- The arguments of a successful `create`. -/
structure Args where
  first : Nat
  num : Nat
  policy : Policy
deriving DecidableEq, Repr

/-- What an event does to the group `id`. -/
def record (id : Nat) (a : Option Args) : Event → Option Args
  | .created _ id' first num policy => if id' = id then some ⟨first, num, policy⟩ else a
  | .deleted _ id' => if id' = id then none else a
  | .got .. | .error .. => a

/-- The current group `id` after the trace. -/
def groupOf (id : Nat) (tr : List Event) : Option Args := tr.foldl (record id) none

theorem groupOf_append (id : Nat) (tr : List Event) (e : Event) :
    groupOf id (tr ++ [e]) = record id (groupOf id tr) e := by
  unfold groupOf
  rw [List.foldl_append]
  rfl

/-! ## The invariant -/

section Invariant

variable (cfg : Limits) (h : HardwareInfo)

/-- A group object as `create` makes it and `getQueue` keeps it. -/
structure GroupOk (g : QueueGroup) : Prop where
  pos : 0 < g.numQueues
  fits : g.firstQueue + g.numQueues ≤ cfg.maxQueues
  counter : g.policy = .default → ∃ value, g.data = .counter value ∧ value < g.numQueues
  table : g.policy ≠ .default → ∃ fuel garbage table, g.data = .queues table ∧
    setupCPURoundRobinData cfg.queueBits fuel h garbage g.firstQueue g.numQueues
      (List.replicate h.getMaxCPUs 0) = .ok table

/-- The call runs under the lock. -/
def Call.locked : Call → Bool
  | .creating .. | .deleting _ | .deleted _ => true
  | .idle | .found .. | .loaded .. => false

/-- What a thread in the middle of a call may rely on. -/
def CallOk (s : State) (t : Nat) : Call → Prop
  | .idle => True
  | .creating _ first num _ => s.lock = some t ∧ 0 < num ∧ first + num ≤ cfg.maxQueues
  | .deleting _ => s.lock = some t
  | .deleted id => s.lock = some t ∧ ∀ p, s.queueGroups id = some p → s.objects p = none
  | .found id p => p < s.next ∧ ∀ g, s.objects p = some g → s.queueGroups id = some p
  | .loaded id p offset => p < s.next ∧
      ∀ g, s.objects p = some g → s.queueGroups id = some p ∧ offset < g.numQueues

/-- **The invariant**: an entry with a live object behind it is the group that the trace
says, and a call on a live object is a call on the current group. -/
structure Inv (tr : List Event) (s : State) : Prop where
  entry_lt : ∀ id p, s.queueGroups id = some p → p < s.next
  object : ∀ p g, s.objects p = some g → GroupOk cfg h g
  entry : ∀ id p g, s.queueGroups id = some p → s.objects p = some g →
    groupOf id tr = some ⟨g.firstQueue, g.numQueues, g.policy⟩
  calls : ∀ t, CallOk cfg s t (s.call t)

variable {cfg h} {topo : Topology} {tr es : List Event} {s s' : State} {t : Nat}

theorem inv_initial : Inv cfg h [] .initial where
  entry_lt _ _ hp := by cases hp
  object _ _ hp := by cases hp
  entry _ _ _ hp := by cases hp
  calls _ := trivial

theorem CallOk.holder {c : Call} (hc : CallOk cfg s t c) (hl : c.locked = true) :
    s.lock = some t := by
  cases c with
  | idle => cases hl
  | creating => exact hc.1
  | deleting => exact hc
  | deleted => exact hc.1
  | found => cases hl
  | loaded => cases hl

/-- While `t` has the lock, or nobody has, no other thread is in a locked call. -/
theorem Inv.unlocked (hinv : Inv cfg h tr s) (hl : s.lock = none ∨ s.lock = some t) {u : Nat}
    (hu : u ≠ t) : (s.call u).locked = false := by
  by_contra hc
  have hlock := (hinv.calls u).holder (Bool.of_not_eq_false hc)
  rcases hl with hl | hl
  · rw [hl] at hlock
    cases hlock
  · rw [hl, Option.some.injEq] at hlock
    exact hu hlock.symm

/-- A step of another thread that leaves the entries of the live objects in place. -/
theorem CallOk.frame {c : Call} (hc : CallOk cfg s t c) (hl : c.locked = false)
    (hnext : s.next ≤ s'.next)
    (hobj : ∀ p g', p < s.next → s'.objects p = some g' → ∃ g, s.objects p = some g ∧
      g'.numQueues = g.numQueues ∧ ∀ id, s.queueGroups id = some p → s'.queueGroups id = some p) :
    CallOk cfg s' t c := by
  cases c with
  | idle => trivial
  | creating => cases hl
  | deleting => cases hl
  | deleted => cases hl
  | found id p =>
    refine ⟨Nat.lt_of_lt_of_le hc.1 hnext, fun g' hg' => ?_⟩
    obtain ⟨g, hg, -, hkeep⟩ := hobj p g' hc.1 hg'
    exact hkeep id (hc.2 g hg)
  | loaded id p offset =>
    refine ⟨Nat.lt_of_lt_of_le hc.1 hnext, fun g' hg' => ?_⟩
    obtain ⟨g, hg, hnum, hkeep⟩ := hobj p g' hc.1 hg'
    obtain ⟨hentry, hlt⟩ := hc.2 g hg
    exact ⟨hkeep id hentry, by rwa [hnum]⟩

/-- Where thread `t` goes and where the others stay. -/
theorem calls_goto {call' : Nat → Call} {c : Call} (hcall : call' = Function.update s.call t c)
    (ht : CallOk cfg s' t c) (hothers : ∀ u, u ≠ t → CallOk cfg s' u (s.call u)) (u : Nat) :
    CallOk cfg s' u (call' u) := by
  rw [hcall]
  by_cases hu : u = t
  · subst hu
    rw [Function.update_self]
    exact ht
  · rw [Function.update_of_ne hu]
    exact hothers u hu

/-- A step that touches neither the table nor the objects. -/
theorem Inv.goto (hinv : Inv cfg h tr s) {c : Call}
    (hes : ∀ id, groupOf id (tr ++ es) = groupOf id tr) (ht : CallOk cfg s t c) :
    Inv cfg h (tr ++ es) (s.goto t c) where
  entry_lt := hinv.entry_lt
  object := hinv.object
  entry id p g hp hg := by
    rw [hes id]
    exact hinv.entry id p g hp hg
  calls := calls_goto rfl (by cases c <;> exact ht) fun u _ => by
    have hu := hinv.calls u
    cases hcu : s.call u <;> rw [hcu] at hu <;> exact hu

theorem update_eq_some {α : Type} {f : Nat → Option α} {i j : Nat} {v : Option α} {a : α}
    (hf : Function.update f i v j = some a) : (j = i ∧ v = some a) ∨ (j ≠ i ∧ f j = some a) := by
  by_cases hji : j = i
  · subst hji
    rw [Function.update_self] at hf
    exact .inl ⟨rfl, hf⟩
  · rw [Function.update_of_ne hji] at hf
    exact .inr ⟨hji, hf⟩

/-- A step that takes or releases the lock. -/
theorem Inv.relock (hinv : Inv cfg h tr s) {c : Call} {l : Option Nat}
    (hl : s.lock = none ∨ s.lock = some t)
    (hes : ∀ id, groupOf id (tr ++ es) = groupOf id tr)
    (ht : CallOk cfg { s.goto t c with lock := l } t c) :
    Inv cfg h (tr ++ es) { s.goto t c with lock := l } where
  entry_lt := hinv.entry_lt
  object := hinv.object
  entry id p g hp hg := by
    rw [hes id]
    exact hinv.entry id p g hp hg
  calls := calls_goto rfl ht fun u hu =>
    (hinv.calls u).frame (hinv.unlocked hl hu) (Nat.le_refl _)
      fun p g' _ hg' => ⟨g', hg', rfl, fun _ hp => hp⟩

theorem GroupOk.create {first num fuel : Nat} {policy : Policy} {garbage : Nat → QueueRange}
    {data : GroupData} (hpos : 0 < num) (hfits : first + num ≤ cfg.maxQueues)
    (hsetup : setupPolicy cfg.queueBits fuel h garbage first num policy = .ok data) :
    GroupOk cfg h ⟨first, num, policy, data⟩ := by
  unfold setupPolicy at hsetup
  refine ⟨hpos, hfits, fun hd => ?_, fun hd => ?_⟩
  · have hd' : policy = .default := hd
    rw [if_pos hd'] at hsetup
    cases hsetup
    exact ⟨0, rfl, hpos⟩
  · have hd' : policy ≠ .default := hd
    rw [if_neg hd'] at hsetup
    obtain ⟨table, htable, hdata⟩ := bind_eq_ok hsetup
    cases hdata
    exact ⟨fuel, garbage, table, rfl, htable⟩

theorem Inv.create (hinv : Inv cfg h tr s) {id first num : Nat} {policy : Policy}
    {data : GroupData} (hc : s.call t = .creating id first num policy)
    (hnone : s.queueGroups id = none) (hok : GroupOk cfg h ⟨first, num, policy, data⟩) :
    Inv cfg h (tr ++ [.created t id first num policy])
      { s.unlock t with
        objects := Function.update s.objects s.next (some ⟨first, num, policy, data⟩)
        next := s.next + 1
        queueGroups := Function.update s.queueGroups id (some s.next)
        numQueueGroups := s.numQueueGroups + 1 } := by
  have ht := hinv.calls t
  rw [hc] at ht
  refine ⟨?_, ?_, ?_, ?_⟩
  · intro id' p hp
    rcases update_eq_some hp with ⟨-, hv⟩ | ⟨-, hp'⟩
    · cases hv
      exact Nat.lt_succ_self _
    · exact Nat.lt_succ_of_lt (hinv.entry_lt id' p hp')
  · intro p g hg
    rcases update_eq_some hg with ⟨-, hv⟩ | ⟨-, hg'⟩
    · cases hv
      exact hok
    · exact hinv.object p g hg'
  · intro id' p g hp hg
    rw [groupOf_append]
    rcases update_eq_some hp with ⟨rfl, hv⟩ | ⟨hid, hp'⟩
    · cases hv
      rcases update_eq_some hg with ⟨-, hv⟩ | ⟨hne, -⟩
      · cases hv
        exact if_pos rfl
      · exact absurd rfl hne
    · rcases update_eq_some hg with ⟨rfl, -⟩ | ⟨-, hg'⟩
      · exact absurd (hinv.entry_lt id' _ hp') (Nat.lt_irrefl _)
      · exact (if_neg (Ne.symm hid)).trans (hinv.entry id' p g hp' hg')
  · refine calls_goto rfl trivial fun u hu => ?_
    refine (hinv.calls u).frame (hinv.unlocked (.inr ht.1) hu) (Nat.le_succ _) ?_
    intro p g' hlt hg'
    rcases update_eq_some hg' with ⟨rfl, -⟩ | ⟨-, hg'⟩
    · exact absurd hlt (Nat.lt_irrefl _)
    refine ⟨g', hg', rfl, fun id' hp => ?_⟩
    have hid : id' ≠ id := by
      rintro rfl
      rw [hnone] at hp
      cases hp
    show Function.update s.queueGroups id (some s.next) id' = some p
    rw [Function.update_of_ne hid]
    exact hp

theorem Inv.deleteObject (hinv : Inv cfg h tr s) {id p : Nat} (hc : s.call t = .deleting id)
    (hp : s.queueGroups id = some p) :
    Inv cfg h (tr ++ [])
      { s.goto t (.deleted id) with objects := Function.update s.objects p none } := by
  have ht := hinv.calls t
  rw [hc] at ht
  -- the objects that are left are old ones
  have hold : ∀ p' g, Function.update s.objects p none p' = some g → s.objects p' = some g := by
    intro p' g hg
    rcases update_eq_some hg with ⟨-, hv⟩ | ⟨-, hg'⟩
    · cases hv
    · exact hg'
  rw [List.append_nil]
  refine ⟨hinv.entry_lt, fun p' g hg => hinv.object p' g (hold p' g hg),
    fun id' p' g hp' hg => hinv.entry id' p' g hp' (hold p' g hg), ?_⟩
  refine calls_goto rfl ⟨ht, fun p' hp' => ?_⟩ fun u hu => ?_
  · have heq : p = p' := Option.some.inj (hp.symm.trans hp')
    subst heq
    exact Function.update_self ..
  · exact (hinv.calls u).frame (hinv.unlocked (.inr ht) hu) (Nat.le_refl _)
      fun p' g' _ hg' => ⟨g', hold p' g' hg', rfl, fun _ hp' => hp'⟩

theorem Inv.deleteDone (hinv : Inv cfg h tr s) {id : Nat} (hc : s.call t = .deleted id) :
    Inv cfg h (tr ++ [.deleted t id])
      { s.unlock t with
        queueGroups := Function.update s.queueGroups id none
        numQueueGroups := predNumber s.numQueueGroups } := by
  have ht := hinv.calls t
  rw [hc] at ht
  have hentry : ∀ id' p, Function.update s.queueGroups id none id' = some p →
      id' ≠ id ∧ s.queueGroups id' = some p := by
    intro id' p hp
    rcases update_eq_some hp with ⟨-, hv⟩ | hold
    · cases hv
    · exact hold
  refine ⟨fun id' p hp => hinv.entry_lt id' p (hentry id' p hp).2, hinv.object, ?_, ?_⟩
  · intro id' p g hp hg
    obtain ⟨hid, hp'⟩ := hentry id' p hp
    rw [groupOf_append]
    exact (if_neg (Ne.symm hid)).trans (hinv.entry id' p g hp' hg)
  · refine calls_goto rfl trivial fun u hu => ?_
    refine (hinv.calls u).frame (hinv.unlocked (.inr ht.1) hu) (Nat.le_refl _) ?_
    intro p g' _ hg'
    refine ⟨g', hg', rfl, fun id' hp => ?_⟩
    -- the object behind the entry that is cleared is gone
    have hid : id' ≠ id := by
      rintro rfl
      exact absurd ((ht.2 p hp).symm.trans hg') (by simp)
    show Function.update s.queueGroups id none id' = some p
    rw [Function.update_of_ne hid]
    exact hp

theorem Inv.swap (hinv : Inv cfg h tr s) {id p offset q : Nat} {g : QueueGroup}
    (hg : s.objects p = some g) (hd : g.data = .counter offset) :
    Inv cfg h (tr ++ [.got t id q])
      { s.goto t .idle with
        objects := Function.update s.objects p
          (some { g with data := .counter (g.nextOffset offset) }) } := by
  have hok := hinv.object p g hg
  -- every object keeps its members except for the counter
  have hold : ∀ p' g', Function.update s.objects p
      (some { g with data := .counter (g.nextOffset offset) }) p' = some g' →
      GroupOk cfg h g' ∧ ∃ g₀, s.objects p' = some g₀ ∧ g'.firstQueue = g₀.firstQueue ∧
        g'.numQueues = g₀.numQueues ∧ g'.policy = g₀.policy := by
    intro p' g' hg'
    rcases update_eq_some hg' with ⟨rfl, hv⟩ | ⟨-, hg₀⟩
    · cases hv
      refine ⟨⟨hok.pos, hok.fits, fun _ => ⟨_, rfl, g.nextOffset_lt hok.pos offset⟩, fun hne => ?_⟩,
        g, hg, rfl, rfl, rfl⟩
      obtain ⟨_, _, _, htable, -⟩ := hok.table hne
      rw [hd] at htable
      cases htable
    · exact ⟨hinv.object p' g' hg₀, g', hg₀, rfl, rfl, rfl⟩
  refine ⟨hinv.entry_lt, fun p' g' hg' => (hold p' g' hg').1, ?_, ?_⟩
  · intro id' p' g' hp' hg'
    obtain ⟨-, g₀, hg₀, hfirst, hnum, hpolicy⟩ := hold p' g' hg'
    rw [groupOf_append, hfirst, hnum, hpolicy]
    exact hinv.entry id' p' g₀ hp' hg₀
  · refine calls_goto rfl trivial fun u _ => ?_
    have hu := hinv.calls u
    cases hl : (s.call u).locked with
    | false =>
      refine hu.frame hl (Nat.le_refl _) fun p' g' _ hg' => ?_
      obtain ⟨-, g₀, hg₀, -, hnum, -⟩ := hold p' g' hg'
      exact ⟨g₀, hg₀, hnum, fun _ hp' => hp'⟩
    | true =>
      cases hcu : s.call u with
      | deleted id' =>
        rw [hcu] at hu
        refine ⟨hu.1, fun p' hp' => ?_⟩
        have hgone := hu.2 p' hp'
        have hne : p' ≠ p := by
          rintro rfl
          rw [hg] at hgone
          cases hgone
        show Function.update s.objects p _ p' = none
        rw [Function.update_of_ne hne]
        exact hgone
      | creating =>
        rw [hcu] at hu
        exact hu
      | deleting =>
        rw [hcu] at hu
        exact hu
      | idle => trivial
      | found =>
        rw [hcu] at hl
        cases hl
      | loaded =>
        rw [hcu] at hl
        cases hl

theorem groupOf_got (id t id' q : Nat) : groupOf id (tr ++ [.got t id' q]) = groupOf id tr :=
  groupOf_append ..

theorem groupOf_error (id t id' : Nat) : groupOf id (tr ++ [.error t id']) = groupOf id tr :=
  groupOf_append ..

/-- Every step keeps the invariant. -/
theorem inv_step (hinv : Inv cfg h tr s) (hs : Step cfg topo h s es s') :
    Inv cfg h (tr ++ es) s' := by
  have hnil : ∀ id, groupOf id (tr ++ []) = groupOf id tr := fun id => by rw [List.append_nil]
  cases hs with
  | @createLock t _ _ _ _ _ hl _ hpos hfits =>
    exact hinv.relock (.inl hl) hnil ⟨rfl, hpos, hfits⟩
  | @createFull t _ _ _ _ hc _ | @createExists t _ _ _ _ _ hc _ _
  | @createInvalid t _ _ _ _ hc _ _ _ =>
    have ht := hinv.calls t
    rw [hc] at ht
    exact hinv.relock (.inr ht.1) (fun id => groupOf_error ..) trivial
  | @createDone t _ _ _ _ _ _ _ hc _ hnone _ hsetup =>
    have ht := hinv.calls t
    rw [hc] at ht
    exact hinv.create hc hnone (.create ht.2.1 ht.2.2 hsetup)
  | deleteLock _ hl _ => exact hinv.relock (.inl hl) hnil rfl
  | @deleteMissing t _ hc _ =>
    have ht := hinv.calls t
    rw [hc] at ht
    exact hinv.relock (.inr ht) (fun id => groupOf_error ..) trivial
  | deleteObject hc hp => exact hinv.deleteObject hc hp
  | deleteDone hc => exact hinv.deleteDone hc
  | @getMissing t _ _ _ _ =>
    refine ⟨hinv.entry_lt, hinv.object, fun id p g hp hg => ?_, hinv.calls⟩
    rw [groupOf_error]
    exact hinv.entry id p g hp hg
  | getFound _ _ hp =>
    exact hinv.goto hnil ⟨hinv.entry_lt _ _ hp, fun _ _ => hp⟩
  | getOnly | getLost | getCPU => exact hinv.goto (fun id => groupOf_got ..) trivial
  | @getLoad t id p offset g hc hg hd _ hdata =>
    have ht := hinv.calls t
    rw [hc] at ht
    refine hinv.goto hnil ⟨ht.1, fun g' hg' => ⟨ht.2 g' hg', ?_⟩⟩
    have heq : g' = g := Option.some.inj (hg'.symm.trans hg)
    subst heq
    obtain ⟨value, hvalue, hlt⟩ := (hinv.object p g' hg).counter hd
    rw [hdata] at hvalue
    cases hvalue
    exact hlt
  | getSwap _ hg hd => exact hinv.swap hg hd

end Invariant

/-- The invariant holds after every run. -/
theorem inv_reach {cfg : Limits} {topo : Topology} {h : HardwareInfo} {tr : List Event} {s : State}
    (hr : Reach (machine cfg topo h) tr s) : Inv cfg h tr s :=
  hr.invariant (fun s hs => by rw [show s = .initial from hs]; exact inv_initial)
    fun _ _ _ _ _ hinv hs => inv_step hinv hs

end Groups

end Tagaspi
