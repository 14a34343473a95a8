import Mathlib.Data.Finset.Card
import Tagaspi.QueueGroups.Table

/-!
# The table of queue groups is a finite map

A program that makes its calls one after the other sees a map from ids to groups.
The library keeps more than that: pointers to objects on the heap, and a count of the
entries that has to follow them.

- `call`, `calls`: `tagaspi_queue_group_create`, `_delete` and `_get_queue` as functions
  on the state of `QueueGroups.Table`. What `setupCPURoundRobinData` computes is an
  argument of `create`.
- `GroupMap`: the map, without a heap and without a count.
- `TableOk`: the invariant of every sequence of calls.
- `table_refines_map`: the results are those of the map, and a call changes no more
  than its own entry.
- `calls_run`: a sequence of calls is a run of the machine of `QueueGroups.Table`, in
  which no call is interrupted.
-/

namespace Tagaspi

open Lts Loops

/-- `QueueGroup::getQueue` on CPU `cpu`. No other call interrupts it, so that the exchange
succeeds. -/
def QueueGroup.getQueue (queueBits cpu : Nat) (g : QueueGroup) :
    Except Fault (QueueGroup × Nat) :=
  if g.policy = .default then
    if 1 < g.numQueues then
      match g.data with
      | .counter offset => .ok ({ g with data := .counter (g.nextOffset offset) },
          (g.firstQueue + offset) % 2 ^ queueBits)
      | .queues _ => .error .outOfBounds
    else .ok (g, g.firstQueue)
  else
    match g.data with
    | .queues table => do
      let queue ← fetch table cpu
      .ok (g, queue)
    | .counter _ => .error .outOfBounds

namespace Groups

/-! ## The calls -/

/-- What a call returns; `queue q` is `GASPI_SUCCESS` with a queue. -/
inductive Result where
  | success
  | queue (q : Nat)
  | error
deriving DecidableEq, Repr

/-- `new QueueGroup(first, num)` and `setupPolicy(policy)`. If the policy asks for a table, it
is `table`. -/
def newGroup (first num : Nat) (policy : Policy) (table : List Nat) : QueueGroup :=
  ⟨first, num, policy, if policy = .default then .counter 0 else .queues table⟩

/-- `tagaspi_queue_group_create`. -/
def create (s : State) (id first num : Nat) (policy : Policy) (table : List Nat) :
    State × Result :=
  if maxQueueGroups ≤ s.numQueueGroups then (s, .error)
  else match s.queueGroups id with
    | some _ => (s, .error)
    | none =>
      if policy.isValidPolicy then
        ({ s with
            objects := Function.update s.objects s.next (some (newGroup first num policy table))
            next := s.next + 1
            queueGroups := Function.update s.queueGroups id (some s.next)
            numQueueGroups := s.numQueueGroups + 1 }, .success)
      else (s, .error)

/-- `tagaspi_queue_group_delete`. -/
def delete (s : State) (id : Nat) : State × Result :=
  match s.queueGroups id with
  | none => (s, .error)
  | some p =>
    ({ s with
        objects := Function.update s.objects p none
        queueGroups := Function.update s.queueGroups id none
        numQueueGroups := predNumber s.numQueueGroups }, .success)

/-- `tagaspi_queue_group_get_queue` on CPU `cpu`. -/
def getQueue (queueBits : Nat) (s : State) (id cpu : Nat) : Except Fault (State × Result) :=
  match s.queueGroups id with
  | none => .ok (s, .error)
  | some p =>
    match s.objects p with
    | none => .error .outOfBounds
    | some g => do
      let (g', q) ← g.getQueue queueBits cpu
      .ok ({ s with objects := Function.update s.objects p (some g') }, .queue q)

/-- The calls of the interface. -/
inductive Op where
  | create (id first num : Nat) (policy : Policy) (table : List Nat)
  | delete (id : Nat)
  | getQueue (id cpu : Nat)
deriving DecidableEq, Repr

def Op.id : Op → Nat
  | .create id .. | .delete id | .getQueue id _ => id

/-- One call. -/
def call (queueBits : Nat) (s : State) : Op → Except Fault (State × Result)
  | .create id first num policy table => .ok (create s id first num policy table)
  | .delete id => .ok (delete s id)
  | .getQueue id cpu => getQueue queueBits s id cpu

/-- One call after the other. -/
def calls (queueBits : Nat) : State → List Op → Except Fault (State × List Result)
  | s, [] => .ok (s, [])
  | s, op :: ops => do
    let (s₁, r) ← call queueBits s op
    let (s₂, rs) ← calls queueBits s₁ ops
    .ok (s₂, r :: rs)

/-- What the assertions ask of a call: an id and a range that exist. The table has an entry
for every CPU, and the caller runs on one of them. -/
def Op.Valid (cfg : Limits) (maxCPUs : Nat) : Op → Prop
  | .create id first num _ table => id < maxQueueGroups ∧ 0 < num ∧
      first + num ≤ cfg.maxQueues ∧ table.length = maxCPUs
  | .delete id => id < maxQueueGroups
  | .getQueue id cpu => id < maxQueueGroups ∧ cpu < maxCPUs

end Groups

/-! ## The map -/

namespace GroupMap

open Groups (Result Op)

/-- A group, as its users see it. -/
inductive Group where
  /-- The `num` queues from `first` on, in turn; `next` is the next one. -/
  | turn (first num next : Nat)
  /-- A queue for each CPU. -/
  | perCPU (table : List Nat)
deriving DecidableEq, Repr

/-- A new group. -/
def Group.fresh (first num : Nat) (policy : Policy) (table : List Nat) : Group :=
  if policy = .default then .turn first num 0 else .perCPU table

/-- The queue that a group hands out, and the group after that. -/
def Group.handOut (cpu : Nat) : Group → Group × Nat
  | .turn first num next => (.turn first num ((next + 1) % num), first + next)
  | .perCPU table => (.perCPU table, table.getD cpu 0)

def call (m : Nat → Option Group) : Op → (Nat → Option Group) × Result
  | .create id first num policy table =>
    if m id = none ∧ policy.isValidPolicy = true then
      (Function.update m id (some (.fresh first num policy table)), .success)
    else (m, .error)
  | .delete id => if m id = none then (m, .error) else (Function.update m id none, .success)
  | .getQueue id cpu =>
    match m id with
    | none => (m, .error)
    | some g => (Function.update m id (some (g.handOut cpu).1), .queue (g.handOut cpu).2)

def calls (m : Nat → Option Group) : List Op → (Nat → Option Group) × List Result
  | [] => (m, [])
  | op :: ops => ((calls (call m op).1 ops).1, (call m op).2 :: (calls (call m op).1 ops).2)

end GroupMap

namespace Groups

/-- The group behind an id. -/
def State.groupAt (s : State) (id : Nat) : Option QueueGroup := (s.queueGroups id).bind s.objects

/-- What the group hands out. -/
def handsOut (g : QueueGroup) : GroupMap.Group :=
  match g.data with
  | .counter next => .turn g.firstQueue g.numQueues next
  | .queues table => .perCPU table

/-- The map that the state stands for. -/
def State.map (s : State) (id : Nat) : Option GroupMap.Group := (s.groupAt id).map handsOut

/-- The ids with an entry that is not null. -/
def State.present (s : State) : Finset Nat :=
  (Finset.range maxQueueGroups).filter fun id => (s.queueGroups id).isSome

/-! ## The invariant -/

section Invariant

variable (cfg : Limits) (maxCPUs : Nat)

/-- A group whose data fit its policy. -/
structure Usable (g : QueueGroup) : Prop where
  pos : 0 < g.numQueues
  fits : g.firstQueue + g.numQueues ≤ cfg.maxQueues
  counter : g.policy = .default → ∃ next, g.data = .counter next ∧ next < g.numQueues
  table : g.policy ≠ .default → ∃ table, g.data = .queues table ∧ table.length = maxCPUs

/-- **The invariant**: every entry has an object of its own, and the count is right. -/
structure TableOk (s : State) : Prop where
  entry_id : ∀ id p, s.queueGroups id = some p → id < maxQueueGroups
  entry_lt : ∀ id p, s.queueGroups id = some p → p < s.next
  entry_inj : ∀ id id' p, s.queueGroups id = some p → s.queueGroups id' = some p → id = id'
  object : ∀ id p, s.queueGroups id = some p → ∃ g, s.objects p = some g ∧ Usable cfg maxCPUs g
  count : s.numQueueGroups = s.present.card

/-- The call finds what it needs. -/
def Op.Allowed (s : State) : Op → Prop
  | .create id _ _ policy _ => s.queueGroups id = none ∧ policy.isValidPolicy = true
  | .delete id | .getQueue id _ => s.queueGroups id ≠ none

/-- What a call does to the state. -/
structure Outcome (s : State) (op : Op) (s' : State) (r : Result) : Prop where
  /-- It succeeds if and only if it finds what it needs. -/
  result : r ≠ .error ↔ op.Allowed s
  /-- A call that fails changes nothing. -/
  failed : r = .error → s' = s
  /-- The other entries and the groups behind them stay. -/
  others : ∀ id, id ≠ op.id → s'.queueGroups id = s.queueGroups id ∧ s'.groupAt id = s.groupAt id
  /-- A group that is created, for the first time or again, starts afresh. -/
  created : ∀ id first num policy table, op = .create id first num policy table →
    r ≠ .error → r = .success ∧ s'.numQueueGroups = s.numQueueGroups + 1 ∧
      s'.groupAt id = some (newGroup first num policy table)
  deleted : ∀ id, op = .delete id → r ≠ .error →
    r = .success ∧ s'.numQueueGroups + 1 = s.numQueueGroups ∧ s'.queueGroups id = none
  /-- `get_queue` changes nothing but the counter of the group. -/
  got : ∀ id cpu, op = .getQueue id cpu → r ≠ .error →
    (∃ q, r = .queue q) ∧ s'.queueGroups = s.queueGroups ∧
      s'.numQueueGroups = s.numQueueGroups ∧
      ∃ g g', s.groupAt id = some g ∧ s'.groupAt id = some g' ∧ { g' with data := g.data } = g ∧
        (g.policy ≠ .default → g' = g)

variable {cfg maxCPUs} {s s' : State} {op : Op} {r : Result} {id p : Nat} {g : QueueGroup}

theorem tableOk_initial : TableOk cfg maxCPUs .initial where
  entry_id _ _ hp := by cases hp
  entry_lt _ _ hp := by cases hp
  entry_inj _ _ _ hp := by cases hp
  object _ _ hp := by cases hp
  count := rfl

theorem groupAt_of_entry (hp : s.queueGroups id = some p) : s.groupAt id = s.objects p := by
  unfold State.groupAt
  rw [hp, Option.bind_some]

theorem TableOk.groupAt (h : TableOk cfg maxCPUs s) (hp : s.queueGroups id = some p) :
    ∃ g, s.objects p = some g ∧ s.groupAt id = some g ∧ Usable cfg maxCPUs g := by
  obtain ⟨g, hg, hok⟩ := h.object id p hp
  exact ⟨g, hg, (groupAt_of_entry hp).trans hg, hok⟩

theorem groupAt_of_none (hp : s.queueGroups id = none) : s.groupAt id = none := by
  unfold State.groupAt
  rw [hp, Option.bind_none]

/-- An id has an entry exactly if it has a group. -/
theorem TableOk.map_eq_none (h : TableOk cfg maxCPUs s) :
    s.map id = none ↔ s.queueGroups id = none := by
  unfold State.map
  rw [Option.map_eq_none_iff]
  refine ⟨fun hnone => ?_, groupAt_of_none⟩
  cases hp : s.queueGroups id with
  | none => rfl
  | some p =>
    obtain ⟨g, -, hg, -⟩ := h.groupAt hp
    rw [hnone] at hg
    cases hg

/-- The groups behind the other ids stay if the objects behind them do. -/
theorem groupAt_congr (hentry : s'.queueGroups id = s.queueGroups id)
    (hobj : ∀ p, s.queueGroups id = some p → s'.objects p = s.objects p) :
    s'.groupAt id = s.groupAt id := by
  unfold State.groupAt
  rw [hentry]
  cases hp : s.queueGroups id with
  | none => rfl
  | some p => exact hobj p hp

/-- A map that changes at one id. -/
theorem map_update {v : Option QueueGroup} (hself : s'.groupAt id = v)
    (hothers : ∀ id', id' ≠ id → s'.groupAt id' = s.groupAt id') :
    s'.map = Function.update s.map id (v.map handsOut) := by
  funext id'
  unfold State.map
  by_cases hid : id' = id
  · subst hid
    rw [Function.update_self, hself]
  · rw [Function.update_of_ne hid, hothers id' hid]

/-! ## Counting the entries -/

theorem mem_present : id ∈ s.present ↔ id < maxQueueGroups ∧ s.queueGroups id ≠ none := by
  unfold State.present
  rw [Finset.mem_filter, Finset.mem_range, Option.isSome_iff_ne_none]

theorem present_create (hid : id < maxQueueGroups)
    (hentries : s'.queueGroups = Function.update s.queueGroups id (some p)) :
    s'.present = insert id s.present := by
  ext id'
  rw [Finset.mem_insert, mem_present, mem_present, hentries]
  by_cases heq : id' = id
  · subst heq
    rw [Function.update_self]
    simp [hid]
  · rw [Function.update_of_ne heq]
    simp [heq]

theorem present_delete (hentries : s'.queueGroups = Function.update s.queueGroups id none) :
    s'.present = s.present.erase id := by
  ext id'
  rw [Finset.mem_erase, mem_present, mem_present, hentries]
  by_cases heq : id' = id
  · subst heq
    rw [Function.update_self]
    simp
  · rw [Function.update_of_ne heq]
    simp [heq]

theorem present_le : s.present.card ≤ maxQueueGroups := by
  have hle := Finset.card_filter_le (Finset.range maxQueueGroups) fun id =>
    (s.queueGroups id).isSome = true
  rwa [Finset.card_range] at hle

/-- **The test for too many groups is redundant**: an id without an entry leaves room. -/
theorem TableOk.room (h : TableOk cfg maxCPUs s) (hid : id < maxQueueGroups)
    (hnone : s.queueGroups id = none) : s.numQueueGroups < maxQueueGroups := by
  have hsub : s.present ⊂ Finset.range maxQueueGroups := by
    refine Finset.ssubset_iff_subset_ne.mpr ⟨Finset.filter_subset _ _, fun heq => ?_⟩
    have hmem : id ∈ s.present := by
      rw [heq]
      exact Finset.mem_range.mpr hid
    exact (mem_present.mp hmem).2 hnone
  rw [h.count, ← Finset.card_range maxQueueGroups]
  exact Finset.card_lt_card hsub

/-! ## One call -/

variable (cfg maxCPUs) in
/-- What one call keeps and does, and that the map does the same. -/
structure Refines (s : State) (op : Op) (s' : State) (r : Result) : Prop where
  ok : TableOk cfg maxCPUs s'
  outcome : Outcome s op s' r
  map : GroupMap.call s.map op = (s'.map, r)

/-- A call that fails. -/
theorem Refines.error (h : TableOk cfg maxCPUs s) (hop : ¬ op.Allowed s)
    (hmap : GroupMap.call s.map op = (s.map, .error)) : Refines cfg maxCPUs s op s .error where
  ok := h
  outcome :=
    { result := ⟨fun hr => absurd rfl hr, fun ha => absurd ha hop⟩
      failed := fun _ => rfl
      others := fun _ _ => ⟨rfl, rfl⟩
      created := fun _ _ _ _ _ _ hr => absurd rfl hr
      deleted := fun _ _ hr => absurd rfl hr
      got := fun _ _ _ hr => absurd rfl hr }
  map := hmap

/-! ### `create` -/

section Create

variable {first num : Nat} {policy : Policy} {table : List Nat}

/-- The object that `create` makes. -/
theorem usable_create (hpos : 0 < num) (hfits : first + num ≤ cfg.maxQueues)
    (htable : table.length = maxCPUs) :
    Usable cfg maxCPUs (newGroup first num policy table) where
  pos := hpos
  fits := hfits
  counter hd := ⟨0, if_pos hd, hpos⟩
  table hd := ⟨table, if_neg hd, htable⟩

theorem TableOk.create (h : TableOk cfg maxCPUs s) (hid : id < maxQueueGroups)
    (hp : s.queueGroups id = none) (hg : Usable cfg maxCPUs g) :
    TableOk cfg maxCPUs
      { s with
        objects := Function.update s.objects s.next (some g)
        next := s.next + 1
        queueGroups := Function.update s.queueGroups id (some s.next)
        numQueueGroups := s.numQueueGroups + 1 } := by
  -- an entry is the new one, or an old one with an object of its own
  have hentry : ∀ {id' p}, Function.update s.queueGroups id (some s.next) id' = some p →
      (id' = id ∧ p = s.next) ∨ (s.queueGroups id' = some p ∧ p < s.next) := by
    intro id' p hp'
    rcases update_eq_some hp' with ⟨rfl, hv⟩ | ⟨-, hold⟩
    · exact .inl ⟨rfl, (Option.some.inj hv).symm⟩
    · exact .inr ⟨hold, h.entry_lt id' p hold⟩
  refine ⟨fun id' p hp' => ?_, fun id' p hp' => ?_, fun id' id'' p hp' hp'' => ?_,
    fun id' p hp' => ?_, ?_⟩
  · rcases hentry hp' with ⟨rfl, -⟩ | ⟨hold, -⟩
    · exact hid
    · exact h.entry_id id' p hold
  · rcases hentry hp' with ⟨-, rfl⟩ | ⟨-, hlt⟩
    · exact Nat.lt_succ_self _
    · exact Nat.lt_succ_of_lt hlt
  · rcases hentry hp' with ⟨rfl, hnext'⟩ | ⟨hold', hlt'⟩ <;>
      rcases hentry hp'' with ⟨rfl, hnext''⟩ | ⟨hold'', hlt''⟩
    · rfl
    · omega
    · omega
    · exact h.entry_inj id' id'' p hold' hold''
  · rcases hentry hp' with ⟨-, rfl⟩ | ⟨hold, hlt⟩
    · exact ⟨g, Function.update_self .., hg⟩
    · obtain ⟨g', hg', hok⟩ := h.object id' p hold
      exact ⟨g', (Function.update_of_ne (Nat.ne_of_lt hlt) ..).trans hg', hok⟩
  · show s.numQueueGroups + 1 = _
    rw [present_create hid rfl, Finset.card_insert_of_notMem fun hmem => (mem_present.mp hmem).2 hp,
      h.count]

theorem create_refuse
    (hno : ¬ (s.queueGroups id = none ∧ policy.isValidPolicy = true)) :
    create s id first num policy table = (s, .error) := by
  unfold create
  cases hp : s.queueGroups id with
  | some p => exact ite_self _
  | none =>
    have hpolicy : ¬ policy.isValidPolicy = true := fun hv => hno ⟨hp, hv⟩
    simp only [if_neg hpolicy, ite_self]

theorem create_accept (h : TableOk cfg maxCPUs s) (hid : id < maxQueueGroups)
    (hp : s.queueGroups id = none) (hpolicy : policy.isValidPolicy = true) :
    create s id first num policy table =
      ({ s with
          objects := Function.update s.objects s.next (some (newGroup first num policy table))
          next := s.next + 1
          queueGroups := Function.update s.queueGroups id (some s.next)
          numQueueGroups := s.numQueueGroups + 1 }, .success) := by
  unfold create
  rw [if_neg (Nat.not_le_of_lt (h.room hid hp)), hp]
  exact if_pos hpolicy

theorem handsOut_fresh :
    handsOut (newGroup first num policy table) = .fresh first num policy table := by
  unfold handsOut newGroup GroupMap.Group.fresh
  by_cases hd : policy = .default
  · simp only [if_pos hd]
  · simp only [if_neg hd]

/-- **`create`.** -/
theorem create_refines (h : TableOk cfg maxCPUs s) (hid : id < maxQueueGroups) (hpos : 0 < num)
    (hfits : first + num ≤ cfg.maxQueues) (htable : table.length = maxCPUs) :
    Refines cfg maxCPUs s (.create id first num policy table)
      (create s id first num policy table).1 (create s id first num policy table).2 := by
  by_cases ha : s.queueGroups id = none ∧ policy.isValidPolicy = true
  · obtain ⟨hp, hpolicy⟩ := ha
    have hnew : Usable cfg maxCPUs (newGroup first num policy table) :=
      usable_create hpos hfits htable
    have hok := h.create hid hp hnew
    rw [create_accept h hid hp hpolicy]
    generalize hs' : ({ s with
      objects := Function.update s.objects s.next (some (newGroup first num policy table))
      next := s.next + 1
      queueGroups := Function.update s.queueGroups id (some s.next)
      numQueueGroups := s.numQueueGroups + 1 } : State) = s' at hok ⊢
    have hself : s'.groupAt id = some (newGroup first num policy table) := by
      subst hs'
      exact (groupAt_of_entry (Function.update_self ..)).trans (Function.update_self ..)
    have hothers : ∀ id', id' ≠ id →
        s'.queueGroups id' = s.queueGroups id' ∧ s'.groupAt id' = s.groupAt id' := by
      subst hs'
      intro id' hne
      have hentry : Function.update s.queueGroups id (some s.next) id' = s.queueGroups id' :=
        Function.update_of_ne hne ..
      exact ⟨hentry, groupAt_congr hentry fun p hp' =>
        Function.update_of_ne (Nat.ne_of_lt (h.entry_lt id' p hp')) ..⟩
    refine ⟨hok, ⟨⟨fun _ => ⟨hp, hpolicy⟩, fun _ hr => (by cases hr)⟩, fun hr => (by cases hr),
      hothers, ?_, fun _ hop => (by cases hop), fun _ _ hop => (by cases hop)⟩, ?_⟩
    · intro id' first' num' policy' table' hop _
      cases hop
      exact ⟨rfl, by subst hs'; rfl, hself⟩
    · rw [map_update hself fun id' hne => (hothers id' hne).2, Option.map_some, handsOut_fresh]
      exact if_pos ⟨h.map_eq_none.mpr hp, hpolicy⟩
  · rw [create_refuse ha]
    exact .error h ha (if_neg fun hm => ha ⟨h.map_eq_none.mp hm.1, hm.2⟩)

end Create

/-! ### `delete` -/

theorem TableOk.delete (h : TableOk cfg maxCPUs s) (hp : s.queueGroups id = some p) :
    TableOk cfg maxCPUs
      { s with
        objects := Function.update s.objects p none
        queueGroups := Function.update s.queueGroups id none
        numQueueGroups := s.numQueueGroups - 1 } := by
  have hentry : ∀ {id' p'}, Function.update s.queueGroups id none id' = some p' →
      s.queueGroups id' = some p' ∧ p' ≠ p := by
    intro id' p' hp'
    rcases update_eq_some hp' with ⟨-, hv⟩ | ⟨hne, hold⟩
    · cases hv
    · refine ⟨hold, ?_⟩
      rintro rfl
      exact hne (h.entry_inj id' id p' hold hp)
  refine ⟨fun id' p' hp' => h.entry_id id' p' (hentry hp').1,
    fun id' p' hp' => h.entry_lt id' p' (hentry hp').1,
    fun id' id'' p' hp' hp'' => h.entry_inj id' id'' p' (hentry hp').1 (hentry hp'').1,
    fun id' p' hp' => ?_, ?_⟩
  · obtain ⟨hold, hne⟩ := hentry hp'
    obtain ⟨g, hg, hok⟩ := h.object id' p' hold
    exact ⟨g, (Function.update_of_ne hne ..).trans hg, hok⟩
  · show s.numQueueGroups - 1 = _
    have hmem : id ∈ s.present := mem_present.mpr ⟨h.entry_id id p hp, by rw [hp]; simp⟩
    rw [present_delete rfl, Finset.card_erase_of_mem hmem, h.count]

/-- An entry is counted, so that the count does not wrap around. -/
theorem TableOk.predNumber_count (h : TableOk cfg maxCPUs s) (hp : s.queueGroups id = some p) :
    predNumber s.numQueueGroups = s.numQueueGroups - 1 ∧ 0 < s.numQueueGroups := by
  have hmem : id ∈ s.present := mem_present.mpr ⟨h.entry_id id p hp, by rw [hp]; simp⟩
  have hpos : 0 < s.numQueueGroups := by
    rw [h.count]
    exact Finset.card_pos.mpr ⟨id, hmem⟩
  have hle : s.numQueueGroups ≤ maxQueueGroups := by
    rw [h.count]
    exact present_le
  refine ⟨?_, hpos⟩
  obtain ⟨n, hn⟩ : ∃ n, s.numQueueGroups = n + 1 := ⟨_, (Nat.sub_add_cancel hpos).symm⟩
  rw [hn, predNumber_succ, Nat.add_sub_cancel]
  exact Nat.lt_of_le_of_lt (hn ▸ hle) (by decide)

/-- **`delete`.** -/
theorem delete_refines (h : TableOk cfg maxCPUs s) :
    Refines cfg maxCPUs s (.delete id) (delete s id).1 (delete s id).2 := by
  unfold delete
  cases hp : s.queueGroups id with
  | none => exact .error h (fun ha => ha hp) (if_pos (h.map_eq_none.mpr hp))
  | some p =>
    obtain ⟨hpred, hpos⟩ := h.predNumber_count hp
    have hok := h.delete hp
    simp only
    rw [hpred]
    generalize hs' : ({ s with
      objects := Function.update s.objects p none
      queueGroups := Function.update s.queueGroups id none
      numQueueGroups := s.numQueueGroups - 1 } : State) = s' at hok ⊢
    have hself : s'.queueGroups id = none := by
      subst hs'
      exact Function.update_self ..
    have hothers : ∀ id', id' ≠ id →
        s'.queueGroups id' = s.queueGroups id' ∧ s'.groupAt id' = s.groupAt id' := by
      subst hs'
      intro id' hne
      have hentry : Function.update s.queueGroups id none id' = s.queueGroups id' :=
        Function.update_of_ne hne ..
      refine ⟨hentry, groupAt_congr hentry fun p' hp' => Function.update_of_ne ?_ ..⟩
      rintro rfl
      exact hne (h.entry_inj id' id p' hp' hp)
    have hpresent : s.queueGroups id ≠ none := by
      rw [hp]
      simp
    refine ⟨hok, ⟨⟨fun _ => hpresent, fun _ hr => (by cases hr)⟩, fun hr => (by cases hr),
      hothers, fun _ _ _ _ _ hop => (by cases hop), ?_, fun _ _ hop => (by cases hop)⟩, ?_⟩
    · intro id' hop _
      cases hop
      refine ⟨rfl, ?_, hself⟩
      subst hs'
      exact Nat.sub_add_cancel hpos
    · rw [map_update (groupAt_of_none hself) fun id' hne => (hothers id' hne).2]
      exact if_neg fun hm => hpresent (h.map_eq_none.mp hm)

/-! ### `get_queue` -/

/-- Below `numQueues` the code's next offset is the next one modulo `numQueues`. -/
theorem nextOffset_eq {next : Nat} (hlt : next < g.numQueues) :
    g.nextOffset next = (next + 1) % g.numQueues := by
  unfold QueueGroup.nextOffset
  by_cases hlast : next < g.numQueues - 1
  · rw [if_pos hlast, Nat.mod_eq_of_lt (by omega)]
  · rw [if_neg hlast, show next + 1 = g.numQueues by omega, Nat.mod_self]

/-- **The object**: it hands out what the group of the map hands out, and changes nothing but
its counter. -/
theorem Usable.getQueue (hg : Usable cfg maxCPUs g) (hid : cfg.maxQueues ≤ 2 ^ cfg.queueBits)
    {cpu : Nat} (hcpu : cpu < maxCPUs) :
    ∃ g' q, g.getQueue cfg.queueBits cpu = .ok (g', q) ∧ Usable cfg maxCPUs g' ∧
      (handsOut g).handOut cpu = (handsOut g', q) ∧ { g' with data := g.data } = g ∧
      (g.policy ≠ .default → g' = g) := by
  have hpos := hg.pos
  have hfits := hg.fits
  unfold QueueGroup.getQueue
  by_cases hd : g.policy = .default
  · obtain ⟨next, hdata, hlt⟩ := hg.counter hd
    rw [if_pos hd]
    by_cases hone : 1 < g.numQueues
    · rw [if_pos hone, hdata]
      refine ⟨_, _, rfl, ⟨hg.pos, hg.fits, fun _ => ⟨_, rfl, g.nextOffset_lt hpos next⟩,
        fun hne => absurd hd hne⟩, ?_, ?_, fun hne => absurd hd hne⟩
      · unfold handsOut
        rw [hdata, nextOffset_eq hlt, Nat.mod_eq_of_lt (show g.firstQueue + next < _ by omega)]
        rfl
      · rw [← hdata]
    · -- the only queue: the counter stays at 0
      rw [if_neg hone]
      refine ⟨g, _, rfl, hg, ?_, rfl, fun _ => rfl⟩
      have hzero : next = 0 := by omega
      have hnum : g.numQueues = 1 := by omega
      unfold handsOut
      rw [hdata, hzero, hnum]
      rfl
  · obtain ⟨table, hdata, hlen⟩ := hg.table hd
    rw [if_neg hd, hdata]
    obtain ⟨q, hq⟩ : ∃ q, table[cpu]? = some q :=
      ⟨_, List.getElem?_eq_getElem (by rw [hlen]; exact hcpu)⟩
    refine ⟨g, q, ?_, hg, ?_, by rw [← hdata], fun _ => rfl⟩
    · show fetch table cpu >>= _ = _
      rw [fetch_ok hq]
      rfl
    · unfold handsOut
      rw [hdata]
      show (_, table.getD cpu 0) = _
      rw [List.getD_eq_getElem?_getD, hq]
      rfl

theorem TableOk.setObject (h : TableOk cfg maxCPUs s) (hg : Usable cfg maxCPUs g) :
    TableOk cfg maxCPUs { s with objects := Function.update s.objects p (some g) } where
  entry_id := h.entry_id
  entry_lt := h.entry_lt
  entry_inj := h.entry_inj
  object id' p' hp' := by
    by_cases heq : p' = p
    · subst heq
      exact ⟨g, Function.update_self .., hg⟩
    · obtain ⟨g', hg', hok⟩ := h.object id' p' hp'
      exact ⟨g', (Function.update_of_ne heq ..).trans hg', hok⟩
  count := h.count

/-- **`get_queue`.** -/
theorem getQueue_refines (h : TableOk cfg maxCPUs s) (hid : cfg.maxQueues ≤ 2 ^ cfg.queueBits)
    {cpu : Nat} (hcpu : cpu < maxCPUs) :
    ∃ s' r, getQueue cfg.queueBits s id cpu = .ok (s', r) ∧
      Refines cfg maxCPUs s (.getQueue id cpu) s' r := by
  unfold getQueue
  cases hp : s.queueGroups id with
  | none =>
    refine ⟨s, .error, rfl, .error h (fun ha => ha hp) ?_⟩
    unfold GroupMap.call
    simp only [h.map_eq_none.mpr hp]
  | some p =>
    obtain ⟨g, hobj, hgroup, hg⟩ := h.groupAt hp
    obtain ⟨g', q, hget, hg', hout, hkeep, htable⟩ := hg.getQueue hid hcpu
    have hok := h.setObject (p := p) hg'
    simp only [hobj, hget, ok_bind]
    refine ⟨_, _, rfl, ?_⟩
    generalize hs' : ({ s with objects := Function.update s.objects p (some g') } : State) = s'
      at hok ⊢
    have hself : s'.groupAt id = some g' := by
      have hentry : s'.queueGroups id = some p := by
        subst hs'
        exact hp
      rw [groupAt_of_entry hentry]
      subst hs'
      exact Function.update_self ..
    have hothers : ∀ id', id' ≠ id →
        s'.queueGroups id' = s.queueGroups id' ∧ s'.groupAt id' = s.groupAt id' := by
      subst hs'
      intro id' hne
      refine ⟨rfl, groupAt_congr rfl fun p' hp' => Function.update_of_ne ?_ ..⟩
      rintro rfl
      exact hne (h.entry_inj id' id p' hp' hp)
    have hpresent : s.queueGroups id ≠ none := by
      rw [hp]
      simp
    refine ⟨hok, ⟨⟨fun _ => hpresent, fun _ hr => (by cases hr)⟩, fun hr => (by cases hr),
      hothers, fun _ _ _ _ _ hop => (by cases hop), fun _ hop => (by cases hop), ?_⟩, ?_⟩
    · intro id' cpu' hop _
      cases hop
      refine ⟨⟨q, rfl⟩, ?_, ?_, g, g', hgroup, hself, hkeep, htable⟩
      · subst hs'
        rfl
      · subst hs'
        rfl
    · have hm : s.map id = some (handsOut g) := by
        unfold State.map
        rw [hgroup, Option.map_some]
      unfold GroupMap.call
      simp only [hm, hout]
      rw [map_update hself fun id' hne => (hothers id' hne).2, Option.map_some]

end Invariant

/-- **One call**: it keeps the invariant and does what the map does. -/
theorem call_refines {cfg : Limits} {maxCPUs : Nat} {s : State} (h : TableOk cfg maxCPUs s)
    (hid : cfg.maxQueues ≤ 2 ^ cfg.queueBits) {op : Op} (hop : op.Valid cfg maxCPUs) :
    ∃ s' r, call cfg.queueBits s op = .ok (s', r) ∧ Refines cfg maxCPUs s op s' r := by
  cases op with
  | create id first num policy table =>
    obtain ⟨hlt, hpos, hfits, htable⟩ := hop
    exact ⟨_, _, rfl, create_refines h hlt hpos hfits htable⟩
  | delete id => exact ⟨_, _, rfl, delete_refines h⟩
  | getQueue id cpu => exact getQueue_refines h hid hop.2

/-- **Any sequence of calls.** -/
theorem calls_refines {cfg : Limits} {maxCPUs : Nat} (hid : cfg.maxQueues ≤ 2 ^ cfg.queueBits)
    {ops : List Op} : ∀ {s : State}, TableOk cfg maxCPUs s → (∀ op ∈ ops, op.Valid cfg maxCPUs) →
      ∃ s' rs, calls cfg.queueBits s ops = .ok (s', rs) ∧ TableOk cfg maxCPUs s' ∧
        GroupMap.calls s.map ops = (s'.map, rs) := by
  induction ops with
  | nil =>
    intro s h _
    exact ⟨s, [], rfl, h, rfl⟩
  | cons op ops ih =>
    intro s h hops
    obtain ⟨s₁, r, hcall, hr⟩ := call_refines h hid (hops op List.mem_cons_self)
    obtain ⟨s₂, rs, hcalls, hok, hmap⟩ := ih hr.ok fun op' hmem =>
      hops op' (List.mem_cons_of_mem _ hmem)
    refine ⟨s₂, r :: rs, ?_, hok, ?_⟩
    · unfold calls
      simp only [hcall, hcalls, ok_bind]
    · unfold GroupMap.calls
      simp only [hr.map, hmap]

/-- **The table is a finite map.** After any sequence of calls the count is the number of
entries, at most `maxQueueGroups`, and the results and the groups are those of the map. A
further call succeeds exactly if the map has, or for `create` has not, the id, and changes
nothing but its entry, the count and the counter of its group. -/
theorem table_refines_map (cfg : Limits) (maxCPUs : Nat)
    (hid : cfg.maxQueues ≤ 2 ^ cfg.queueBits) (ops : List Op)
    (hops : ∀ op ∈ ops, op.Valid cfg maxCPUs) :
    ∃ s rs, calls cfg.queueBits .initial ops = .ok (s, rs) ∧
      GroupMap.calls (fun _ => none) ops = (s.map, rs) ∧
      s.numQueueGroups = s.present.card ∧ s.numQueueGroups ≤ maxQueueGroups ∧
      (∀ id, s.queueGroups id ≠ none ↔ id ∈ s.present) ∧
      ∀ op, op.Valid cfg maxCPUs →
        ∃ s' r, call cfg.queueBits s op = .ok (s', r) ∧ Outcome s op s' r := by
  have hinitial : TableOk cfg maxCPUs .initial := tableOk_initial
  obtain ⟨s, rs, hrun, hok, hmap⟩ := calls_refines hid hinitial hops
  refine ⟨s, rs, hrun, hmap, hok.count, ?_, fun id => ?_, fun op hop => ?_⟩
  · rw [hok.count]
    exact present_le
  · rw [mem_present]
    refine ⟨fun hne => ?_, fun hmem => hmem.2⟩
    obtain ⟨p, hp⟩ := Option.ne_none_iff_exists'.mp hne
    exact ⟨hok.entry_id id p hp, hne⟩
  · obtain ⟨s', r, hcall, hr⟩ := call_refines hok hid hop
    exact ⟨s', r, hcall, hr.outcome⟩

/-- A group is created again, after the first one has handed out a queue. -/
theorem table_refines_map_again :
    ∃ s rs, calls 8 .initial [.create 3 5 2 .default [0], .getQueue 3 0, .create 3 0 1 .cpuRR [0],
        .delete 3, .create 3 5 2 .default [0], .getQueue 3 0] = .ok (s, rs) ∧
      rs = [.success, .queue 5, .error, .success, .success, .queue 5] ∧
      s.numQueueGroups = 1 := by
  obtain ⟨s, rs, hrun, -⟩ := table_refines_map ⟨8, 4, 8, 8⟩ 1 (by decide)
    [.create 3 5 2 .default [0], .getQueue 3 0, .create 3 0 1 .cpuRR [0], .delete 3,
      .create 3 5 2 .default [0], .getQueue 3 0] (by
        intro op hmem
        simp only [List.mem_cons, List.not_mem_nil, or_false] at hmem
        rcases hmem with rfl | rfl | rfl | rfl | rfl | rfl <;>
          simp [Op.Valid, maxQueueGroups])
  refine ⟨s, rs, hrun, ?_⟩
  cases hrun
  exact ⟨rfl, rfl⟩

/-! ## The calls as runs of the machine -/

section Runs

variable {cfg : Limits} {topo : Topology} {h : HardwareInfo} {s s' : State} {r : Result} {t : Nat}

/-- Nobody is in a call. -/
structure State.Quiet (s : State) : Prop where
  lock : s.lock = none
  call : ∀ t, s.call t = .idle

/-- What a call needs from outside the table: `create` gets its table from the set-up, and
`get_queue` runs on a CPU of the process. -/
def Op.Supplied (cfg : Limits) (topo : Topology) (h : HardwareInfo) : Op → Prop
  | .create _ first num policy table => policy ≠ .default → ∃ fuel garbage,
      setupCPURoundRobinData cfg.queueBits fuel h garbage first num
        (List.replicate h.getMaxCPUs 0) = .ok table
  | .delete _ => True
  | .getQueue _ cpu => topo.available cpu

/-- The event with which thread `t` returns. -/
def Op.event (t : Nat) : Op → Result → Event
  | op, .error => .error t op.id
  | op, .queue q => .got t op.id q
  | .create id first num policy _, .success => .created t id first num policy
  | .delete id, .success => .deleted t id
  | .getQueue id _, .success => .error t id

theorem State.Quiet.call_back (hq : s.Quiet) (t : Nat) (c : Call) :
    Function.update (Function.update s.call t c) t .idle = s.call := by
  rw [Function.update_idem, ← hq.call t, Function.update_eq_self]

theorem State.Quiet.goto_idle (hq : s.Quiet) (t : Nat) (c : Call) :
    (s.goto t c).goto t .idle = s := by
  unfold State.goto
  simp only [hq.call_back]

/-- A call that takes the lock and releases it. -/
theorem State.Quiet.unlock (hq : s.Quiet) (t : Nat) (c : Call) :
    ({ s.goto t c with lock := some t } : State).unlock t = s := by
  have hgoto := hq.goto_idle t c
  unfold State.unlock
  have hlock : ({ (s.goto t c).goto t .idle with lock := none } : State) = s := by
    rw [hgoto, ← hq.lock]
  exact hlock

/-- The set-up leaves the data of the new group. -/
theorem supplied_setup {id first num : Nat} {policy : Policy} {table : List Nat}
    (hs : (Op.create id first num policy table).Supplied cfg topo h) :
    ∃ fuel garbage, setupPolicy cfg.queueBits fuel h garbage first num policy =
      .ok (newGroup first num policy table).data := by
  unfold setupPolicy newGroup
  by_cases hd : policy = .default
  · refine ⟨0, fun _ => ⟨0, 0⟩, ?_⟩
    simp only [if_pos hd]
  · obtain ⟨fuel, garbage, hrun⟩ := hs hd
    simp only [if_neg hd]
    exact ⟨fuel, garbage, by rw [hrun, ok_bind]⟩

theorem create_runs (hq : s.Quiet) {id first num : Nat} {policy : Policy} {table : List Nat}
    (hid : id < maxQueueGroups) (hpos : 0 < num) (hfits : first + num ≤ cfg.maxQueues)
    (hs : (Op.create id first num policy table).Supplied cfg topo h) :
    Reach ((machine cfg topo h).after s)
      [(Op.create id first num policy table).event t (create s id first num policy table).2]
      (create s id first num policy table).1 := by
  have hinit : Reach ((machine cfg topo h).after s) [] s := Reach.init rfl
  have hlock : Reach ((machine cfg topo h).after s) []
      { s.goto t (.creating id first num policy) with lock := some t } :=
    hinit.step (.createLock (hq.call t) hq.lock hid hpos hfits)
  have hcall : ({ s.goto t (.creating id first num policy) with lock := some t } : State).call t =
      .creating id first num policy := Function.update_self ..
  have hback := hq.unlock t (.creating id first num policy)
  unfold create
  by_cases hfull : maxQueueGroups ≤ s.numQueueGroups
  · rw [if_pos hfull]
    have hrun := hlock.step (.createFull hcall hfull)
    rwa [hback] at hrun
  rw [if_neg hfull]
  have hroom := Nat.lt_of_not_le hfull
  cases hp : s.queueGroups id with
  | some p =>
    have hrun := hlock.step (.createExists hcall hroom hp)
    rwa [hback] at hrun
  | none =>
    by_cases hpolicy : policy.isValidPolicy = true
    · obtain ⟨fuel, garbage, hsetup⟩ := supplied_setup hs
      have hrun := hlock.step (.createDone hcall hroom hp hpolicy hsetup)
      rw [hback] at hrun
      rw [if_pos hpolicy]
      exact hrun
    · have hrun := hlock.step (.createInvalid hcall hroom hp (Bool.eq_false_of_not_eq_true hpolicy))
      rw [if_neg hpolicy]
      rwa [hback] at hrun

theorem delete_runs (hq : s.Quiet) {id : Nat} (hid : id < maxQueueGroups) :
    Reach ((machine cfg topo h).after s) [(Op.delete id).event t (delete s id).2]
      (delete s id).1 := by
  have hinit : Reach ((machine cfg topo h).after s) [] s := Reach.init rfl
  have hlock := hinit.step (.deleteLock (hq.call t) hq.lock hid)
  have hcall : ({ s.goto t (.deleting id) with lock := some t } : State).call t = .deleting id :=
    Function.update_self ..
  unfold delete
  cases hp : s.queueGroups id with
  | none =>
    have hrun := hlock.step (.deleteMissing hcall hp)
    rwa [hq.unlock t (.deleting id)] at hrun
  | some p =>
    have hobject := hlock.step (.deleteObject hcall hp)
    have hrun := hobject.step (.deleteDone (Function.update_self ..))
    have hback : Function.update (Function.update (Function.update s.call t (.deleting id)) t
        (.deleted id)) t .idle = s.call := by
      rw [Function.update_idem]
      exact hq.call_back t (.deleting id)
    simp only [State.unlock, State.goto, hback] at hrun
    simp only [hq.lock]
    exact hrun

/-- What a successful or failing `getQueue` does. -/
theorem getQueue_cases {queueBits id cpu : Nat} (hget : getQueue queueBits s id cpu = .ok (s', r)) :
    (s.queueGroups id = none ∧ s' = s ∧ r = .error) ∨
    ∃ p g g' q, s.queueGroups id = some p ∧ s.objects p = some g ∧
      g.getQueue queueBits cpu = .ok (g', q) ∧
      s' = { s with objects := Function.update s.objects p (some g') } ∧ r = .queue q := by
  unfold getQueue at hget
  cases hp : s.queueGroups id with
  | none =>
    rw [hp] at hget
    cases hget
    exact .inl ⟨rfl, rfl, rfl⟩
  | some p =>
    simp only [hp] at hget
    cases hg : s.objects p with
    | none =>
      rw [hg] at hget
      cases hget
    | some g =>
      simp only [hg] at hget
      obtain ⟨⟨g', q⟩, hqueue, hret⟩ := bind_eq_ok hget
      cases hret
      exact .inr ⟨p, g, g', q, rfl, hg, hqueue, rfl, rfl⟩

theorem getQueue_runs (hq : s.Quiet) {id cpu : Nat} (hid : id < maxQueueGroups)
    (hcpu : topo.available cpu) (hget : getQueue cfg.queueBits s id cpu = .ok (s', r)) :
    Reach ((machine cfg topo h).after s) [(Op.getQueue id cpu).event t r] s' := by
  have hinit : Reach ((machine cfg topo h).after s) [] s := Reach.init rfl
  rcases getQueue_cases hget with ⟨hp, rfl, rfl⟩ | ⟨p, g, g', q, hp, hg, hqueue, rfl, rfl⟩
  · exact hinit.step (.getMissing (hq.call t) hid hp)
  have hfound := hinit.step (.getFound (hq.call t) hid hp)
  have hcall : (s.goto t (.found id p)).call t = .found id p := Function.update_self ..
  have hback := hq.goto_idle t (.found id p)
  have hsame : ({ s with objects := Function.update s.objects p (some g) } : State) = s := by
    rw [← hg, Function.update_eq_self]
  unfold QueueGroup.getQueue at hqueue
  by_cases hd : g.policy = .default
  · rw [if_pos hd] at hqueue
    by_cases hone : 1 < g.numQueues
    · rw [if_pos hone] at hqueue
      cases hdata : g.data with
      | queues table =>
        rw [hdata] at hqueue
        cases hqueue
      | counter offset =>
        rw [hdata] at hqueue
        cases hqueue
        have hload := hfound.step (.getLoad hcall hg hd hone hdata)
        have hrun := hload.step (.getSwap (Function.update_self ..) hg hdata)
        have hback' : Function.update (Function.update (Function.update s.call t (.found id p))
            t (.loaded id p offset)) t .idle = s.call := by
          rw [Function.update_idem]
          exact hq.call_back t (.found id p)
        simp only [State.goto, hback'] at hrun
        exact hrun
    · rw [if_neg hone] at hqueue
      cases hqueue
      rw [hsame]
      have hrun := hfound.step (.getOnly hcall hg hd hone)
      rwa [hback] at hrun
  · rw [if_neg hd] at hqueue
    cases hdata : g.data with
    | counter offset =>
      rw [hdata] at hqueue
      cases hqueue
    | queues table =>
      simp only [hdata] at hqueue
      obtain ⟨q', hfetch, hret⟩ := bind_eq_ok hqueue
      cases hret
      rw [hsame]
      have hrun := hfound.step (.getCPU hcall hg hd hdata hcpu (fetch_eq_ok hfetch))
      rwa [hback] at hrun

/-- A call is a run of the machine that takes no step of another thread. -/
theorem call_runs (hq : s.Quiet) {op : Op} {maxCPUs : Nat} (hop : op.Valid cfg maxCPUs)
    (hs : op.Supplied cfg topo h) (hcall : call cfg.queueBits s op = .ok (s', r)) :
    Reach ((machine cfg topo h).after s) [op.event t r] s' := by
  cases op with
  | create id first num policy table =>
    obtain ⟨rfl, rfl⟩ := Prod.mk.inj (Except.ok.inj hcall)
    exact create_runs hq hop.1 hop.2.1 hop.2.2.1 hs
  | delete id =>
    obtain ⟨rfl, rfl⟩ := Prod.mk.inj (Except.ok.inj hcall)
    exact delete_runs hq hop
  | getQueue id cpu => exact getQueue_runs hq hop.1 hs hcall

/-- A call leaves nobody in a call. -/
theorem quiet_after_call (hq : s.Quiet) {op : Op}
    (hcall : call cfg.queueBits s op = .ok (s', r)) : s'.Quiet := by
  have hkeep : s'.lock = s.lock ∧ s'.call = s.call := by
    cases op with
    | create id first num policy table =>
      have hret : create s id first num policy table = (s', r) := Except.ok.inj hcall
      have hs' : s' = (create s id first num policy table).1 := by rw [hret]
      rw [hs']
      unfold create
      cases s.queueGroups id <;> split_ifs <;> exact ⟨rfl, rfl⟩
    | delete id =>
      have hret : delete s id = (s', r) := Except.ok.inj hcall
      have hs' : s' = (delete s id).1 := by rw [hret]
      rw [hs']
      unfold delete
      cases s.queueGroups id <;> exact ⟨rfl, rfl⟩
    | getQueue id cpu =>
      have hget : getQueue cfg.queueBits s id cpu = .ok (s', r) := hcall
      rcases getQueue_cases hget with ⟨-, rfl, -⟩ | ⟨p, g, g', q, -, -, -, rfl, -⟩
      · exact ⟨rfl, rfl⟩
      · exact ⟨rfl, rfl⟩
  exact ⟨hkeep.1.trans hq.lock, fun t => by rw [hkeep.2]; exact hq.call t⟩

/-- **A sequence of calls is a run of the machine**, one event for each call. -/
theorem calls_run {maxCPUs : Nat} (t : Nat) {ops : List Op} :
    ∀ {s s' : State} {rs : List Result}, s.Quiet → (∀ op ∈ ops, op.Valid cfg maxCPUs) →
      (∀ op ∈ ops, op.Supplied cfg topo h) → calls cfg.queueBits s ops = .ok (s', rs) →
      Reach ((machine cfg topo h).after s) (List.zipWith (Op.event t) ops rs) s' := by
  induction ops with
  | nil =>
    intro s s' rs _ _ _ hrun
    cases hrun
    exact Reach.init rfl
  | cons op ops ih =>
    intro s s' rs hq hops hs hrun
    unfold calls at hrun
    obtain ⟨⟨s₁, r⟩, hcall, hrest⟩ := bind_eq_ok hrun
    obtain ⟨⟨s₂, rs₂⟩, hcalls, hret⟩ := bind_eq_ok hrest
    cases hret
    have hmem : op ∈ op :: ops := List.mem_cons_self
    have hfirst := call_runs (t := t) hq (hops op hmem) (hs op hmem) hcall
    have hothers := ih (quiet_after_call hq hcall)
      (fun op' hmem' => hops op' (List.mem_cons_of_mem _ hmem'))
      (fun op' hmem' => hs op' (List.mem_cons_of_mem _ hmem')) hcalls
    exact hfirst.trans hothers

/-- A group that hands out its queues in turn and one with a queue for each CPU. -/
theorem calls_run_two :
    ∃ s, calls 8 .initial [.create 3 5 2 .default [0, 0, 0, 0], .getQueue 3 0,
        .create 4 2 3 .cpuRR [2, 0, 2, 3], .getQueue 4 3, .delete 3] =
          .ok (s, [.success, .queue 5, .success, .queue 3, .success]) ∧
      Reach ((machine ⟨8, 8, 8, 8⟩ sparseTopology (HardwareInfo.init sparseTopology .empty)).after
          .initial)
        [.created 0 3 5 2 .default, .got 0 3 5, .created 0 4 2 3 .cpuRR, .got 0 4 3,
          .deleted 0 3] s := by
  have hvalid : ∀ op ∈ [.create 3 5 2 .default [0, 0, 0, 0], .getQueue 3 0,
      .create 4 2 3 .cpuRR [2, 0, 2, 3], .getQueue 4 3, .delete 3],
      Op.Valid ⟨8, 8, 8, 8⟩ 4 op := by
    intro op hop
    simp only [List.mem_cons, List.not_mem_nil, or_false] at hop
    rcases hop with rfl | rfl | rfl | rfl | rfl <;> simp [Op.Valid, maxQueueGroups]
  have hsupplied : ∀ op ∈ [.create 3 5 2 .default [0, 0, 0, 0], .getQueue 3 0,
      .create 4 2 3 .cpuRR [2, 0, 2, 3], .getQueue 4 3, .delete 3],
      Op.Supplied ⟨8, 8, 8, 8⟩ sparseTopology (HardwareInfo.init sparseTopology .empty) op := by
    intro op hop
    simp only [List.mem_cons, List.not_mem_nil, or_false] at hop
    rcases hop with rfl | rfl | rfl | rfl | rfl
    · exact fun h => absurd rfl h
    · show sparseTopology.available 0
      decide
    · exact fun _ => ⟨0, fun _ => ⟨0, 0⟩, rfl⟩
    · show sparseTopology.available 3
      decide
    · trivial
  obtain ⟨s, hcalls⟩ : ∃ s, calls 8 .initial [.create 3 5 2 .default [0, 0, 0, 0], .getQueue 3 0,
      .create 4 2 3 .cpuRR [2, 0, 2, 3], .getQueue 4 3, .delete 3] =
        .ok (s, [.success, .queue 5, .success, .queue 3, .success]) := ⟨_, rfl⟩
  exact ⟨s, hcalls, calls_run 0 ⟨rfl, fun _ => rfl⟩ hvalid hsupplied hcalls⟩

end Runs

end Groups

end Tagaspi
