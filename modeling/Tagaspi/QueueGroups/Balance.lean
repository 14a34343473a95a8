import Mathlib.Data.Int.CardIntervalMod
import Tagaspi.QueueGroups.Distribution

/-!
# The CPUs of a node go round its range

The last pass of `setupCPURoundRobinData` gives the CPUs of every available node the
queues of the node's range in turn. The CPUs of a node may lie anywhere between those of
other nodes and CPUs that the process does not have.

- `countP_turns`: how often each place comes up when `k` people take `m` places in turn.
- `nodeCPUs`: the CPUs of a node, in the order in which the pass meets them.
- `GoesRound`: what the pass of a node leaves in the table.
- `node_goes_round`: the pass of a node, and all passes together.
-/

namespace Tagaspi

open Loops

/-! ## Taking turns -/

/-- Of the first `k` numbers as many are `j` modulo `m` as there are full rounds, and one more
if the last round gets past `j`. -/
theorem countP_turns {m j : Nat} (hj : j < m) (k : Nat) :
    (List.range k).countP (fun i => decide (i % m = j)) = k / m + if j < k % m then 1 else 0 := by
  have hcount : (List.range k).countP (fun i => decide (i % m = j)) =
      Nat.count (fun i => i ≡ j [MOD m]) k := by
    induction k with
    | zero => rfl
    | succ k ih =>
      rw [List.range_succ, List.countP_append, List.countP_singleton, Nat.count_succ, ih]
      refine congrArg _ (if_congr ?_ rfl rfl)
      rw [decide_eq_true_iff, Nat.ModEq, Nat.mod_eq_of_lt hj]
  rw [hcount, Nat.count_modEq_card k (Nat.zero_lt_of_lt hj) j, Nat.mod_eq_of_lt hj]

/-- The `i`-th number below `k` with the property has `i` such numbers below it. -/
theorem countP_range_of_filter {p : Nat → Bool} {k : Nat} :
    ∀ {i c : Nat}, ((List.range k).filter p)[i]? = some c → (List.range c).countP p = i := by
  induction k with
  | zero =>
    intro i c hc
    cases hc
  | succ k ih =>
    intro i c hc
    rw [List.range_succ, List.filter_append] at hc
    by_cases hi : i < ((List.range k).filter p).length
    · rw [List.getElem?_append_left hi] at hc
      exact ih hc
    · -- it is the last one
      rw [List.getElem?_append_right (Nat.le_of_not_lt hi)] at hc
      obtain ⟨hlt, heq⟩ := List.getElem?_eq_some_iff.mp hc
      have hmem := List.getElem_mem hlt
      rw [heq, List.mem_filter, List.mem_singleton] at hmem
      obtain ⟨rfl, hp⟩ := hmem
      rw [List.filter_singleton, hp] at hlt
      rw [List.countP_eq_length_filter]
      simp only [cond_true, List.length_singleton] at hlt
      omega

/-! ## The CPUs of a node -/

section Node

variable {queueBits : Nat} {h : HardwareInfo} {n first num : Nat} {table : List Nat}

/-- The CPUs of node `n`, in increasing order. -/
def nodeCPUs (h : HardwareInfo) (n : Nat) : List Nat :=
  (List.range h.getMaxCPUs).filter fun c => decide (h.isInNode n c)

theorem mem_nodeCPUs {c : Nat} : c ∈ nodeCPUs h n ↔ h.isInNode n c := by
  unfold nodeCPUs
  rw [List.mem_filter, List.mem_range, decide_eq_true_iff]
  exact and_iff_right_of_imp HardwareInfo.isInNode_lt

theorem nodeRank_of_nodeCPUs {i c : Nat} (hc : (nodeCPUs h n)[i]? = some c) :
    nodeRank h n c = i := countP_range_of_filter hc

/-- How many CPUs of node `n` have `queue`. -/
def cpusOn (h : HardwareInfo) (n : Nat) (table : List Nat) (queue : Nat) : Nat :=
  (nodeCPUs h n).countP fun c => decide (table[c]? = some queue)

/-- The CPUs of node `n` go round the `num` queues from `first` on. -/
structure GoesRound (h : HardwareInfo) (n first num : Nat) (table : List Nat) : Prop where
  turn : ∀ i c, (nodeCPUs h n)[i]? = some c → table[c]? = some (first + i % num)
  even : ∀ q q', first ≤ q → q < first + num → first ≤ q' → q' < first + num →
    cpusOn h n table q ≤ cpusOn h n table q' + 1
  used : num ≤ (nodeCPUs h n).length → ∀ q, first ≤ q → q < first + num →
    ∃ c, h.isInNode n c ∧ table[c]? = some q

/-- The CPUs on a queue are counted by their turns. -/
theorem cpusOn_eq (hturn : ∀ i c, (nodeCPUs h n)[i]? = some c → table[c]? = some (first + i % num))
    {q : Nat} (hle : first ≤ q) (hlt : q < first + num) :
    cpusOn h n table q = (nodeCPUs h n).length / num +
      if q - first < (nodeCPUs h n).length % num then 1 else 0 := by
  rw [← countP_turns (show q - first < num by omega)]
  have hmap : (nodeCPUs h n).map (fun c => decide (table[c]? = some q)) =
      (List.range (nodeCPUs h n).length).map fun i => decide (i % num = q - first) := by
    refine List.ext_getElem? fun i => ?_
    rw [List.getElem?_map, List.getElem?_map]
    by_cases hi : i < (nodeCPUs h n).length
    · have hc := List.getElem?_eq_getElem hi
      rw [List.getElem?_range hi, hc, Option.map_some, Option.map_some, hturn i _ hc]
      refine congrArg some (decide_eq_decide.mpr ?_)
      rw [Option.some.injEq]
      constructor
      · intro heq
        omega
      · intro heq
        omega
    · rw [List.getElem?_eq_none (Nat.le_of_not_lt hi),
        List.getElem?_eq_none (by rw [List.length_range]; exact Nat.le_of_not_lt hi)]
      rfl
  have hcount := congrArg (List.countP id) hmap
  rw [List.countP_map, List.countP_map] at hcount
  exact hcount

/-- Whoever goes round spreads evenly. -/
theorem goesRound_of_turn (hpos : 1 ≤ num)
    (hturn : ∀ i c, (nodeCPUs h n)[i]? = some c → table[c]? = some (first + i % num)) :
    GoesRound h n first num table := by
  refine ⟨hturn, fun q q' hq hq' hr hr' => ?_, fun hmany q hq hq' => ?_⟩
  · rw [cpusOn_eq hturn hq hq', cpusOn_eq hturn hr hr', Nat.add_assoc]
    refine Nat.add_le_add_left ?_ _
    by_cases hlast : q - first < (nodeCPUs h n).length % num
    · rw [if_pos hlast]
      exact Nat.le_add_left 1 _
    · rw [if_neg hlast]
      exact Nat.zero_le _
  · have hround : 0 < (nodeCPUs h n).length / num := Nat.div_pos hmany hpos
    have hcount : 0 < cpusOn h n table q := by
      rw [cpusOn_eq hturn hq hq']
      exact Nat.add_pos_left hround _
    obtain ⟨c, hc, hqueue⟩ := List.countP_pos_iff.mp hcount
    exact ⟨c, mem_nodeCPUs.mp hc, of_decide_eq_true hqueue⟩

/-- The queues of a range that fits are not truncated. -/
theorem turn_of_entries {range : QueueRange} (hpos : 1 ≤ range.num)
    (hfits : range.first + range.num ≤ 2 ^ queueBits)
    (hentries : ∀ c, h.isInNode n c → table[c]? = some (rangeQueue queueBits h range n c)) :
    GoesRound h n range.first range.num table := by
  refine goesRound_of_turn hpos fun i c hc => ?_
  have hlt := Nat.mod_lt i hpos
  rw [hentries c (mem_nodeCPUs.mp (List.mem_of_getElem? hc)), rangeQueue, nodeRank_of_nodeCPUs hc,
    Nat.mod_eq_of_lt (by omega)]

/-- The pass of one node. -/
theorem assignNode_goes_round {numaQueues : Nat → QueueRange} (hlen : table.length = h.getMaxCPUs)
    (hnode : h.isNode n) (hpos : 1 ≤ (numaQueues n).num)
    (hfits : (numaQueues n).first + (numaQueues n).num ≤ 2 ^ queueBits) :
    ∃ table', assignNode queueBits h numaQueues n table = .ok table' ∧
      table'.length = table.length ∧ (∀ c, ¬ h.isInNode n c → table'[c]? = table[c]?) ∧
      GoesRound h n (numaQueues n).first (numaQueues n).num table' := by
  obtain ⟨table', hrun, hlen', hentries⟩ :=
    assignNode_spec hlen (HardwareInfo.isNode_lt hnode) fun _ _ _ => hpos
  refine ⟨table', hrun, hlen', fun c hc => ?_, turn_of_entries hpos hfits fun c hc => ?_⟩
  · rw [hentries c, if_neg fun hin => hc hin.2]
  · rw [hentries c, if_pos ⟨hnode, hc⟩]

/-- The set-up leaves the table of its last pass. -/
theorem setup_goes_round {fuel : Nat} {garbage : Nat → QueueRange} {table' : List Nat}
    (hlen : table.length = h.getMaxCPUs)
    (hrun : setupCPURoundRobinData queueBits fuel h garbage first num table = .ok table') :
    ∃ numaQueues, nodeRanges queueBits fuel h garbage first num
        (num / h.numAvailableNUMANodes) (num % h.numAvailableNUMANodes) = .ok numaQueues ∧
      ∀ n, h.isNode n → 1 ≤ (numaQueues n).num →
        (numaQueues n).first + (numaQueues n).num ≤ 2 ^ queueBits →
        GoesRound h n (numaQueues n).first (numaQueues n).num table' := by
  unfold setupCPURoundRobinData at hrun
  by_cases hzero : h.numAvailableNUMANodes = 0
  · rw [divide, if_pos hzero] at hrun
    cases hrun
  · rw [divide_ok hzero, modulo_ok hzero, ok_bind, ok_bind] at hrun
    obtain ⟨numaQueues, hranges, hassign⟩ := bind_eq_ok hrun
    refine ⟨numaQueues, hranges, fun n hn hpos hfits => ?_⟩
    have hentries := (assignCPUs_ok hlen hassign).2.2
    exact turn_of_entries hpos hfits fun c hc => hentries n c (HardwareInfo.isNode_lt hn) hn hc

end Node

/-- **The CPUs of every node go round its range.** The passes return a table exactly if no
available node has CPUs and an empty range. Every node with queues then goes round them: its
pass sets the entries of its own CPUs and no others, and no other pass changes them. So do the
nodes in the table that the whole set-up returns, with the ranges that it has computed. -/
theorem node_goes_round (queueBits : Nat) (h : HardwareInfo) (numaQueues : Nat → QueueRange)
    (table : List Nat) (hlen : table.length = h.getMaxCPUs) :
    ((∃ table', assignCPUs queueBits h numaQueues table = .ok table') ↔
      ∀ n c, h.isNode n → h.isInNode n c → 1 ≤ (numaQueues n).num) ∧
    (∀ n, h.isNode n → 1 ≤ (numaQueues n).num →
      (numaQueues n).first + (numaQueues n).num ≤ 2 ^ queueBits →
      (∀ table', assignCPUs queueBits h numaQueues table = .ok table' →
        GoesRound h n (numaQueues n).first (numaQueues n).num table') ∧
      ∃ table', assignNode queueBits h numaQueues n table = .ok table' ∧
        table'.length = table.length ∧ (∀ c, ¬ h.isInNode n c → table'[c]? = table[c]?) ∧
        GoesRound h n (numaQueues n).first (numaQueues n).num table') ∧
    ∀ fuel garbage first num table',
      setupCPURoundRobinData queueBits fuel h garbage first num table = .ok table' →
      ∃ ranges, nodeRanges queueBits fuel h garbage first num
          (num / h.numAvailableNUMANodes) (num % h.numAvailableNUMANodes) = .ok ranges ∧
        ∀ n, h.isNode n → 1 ≤ (ranges n).num →
          (ranges n).first + (ranges n).num ≤ 2 ^ queueBits →
          GoesRound h n (ranges n).first (ranges n).num table' := by
  refine ⟨?_, fun n hn hpos hfits => ⟨fun table' hrun => ?_,
    assignNode_goes_round hlen hn hpos hfits⟩, fun _ _ _ _ _ hrun => setup_goes_round hlen hrun⟩
  · constructor
    · rintro ⟨table', hrun⟩
      exact (assignCPUs_ok hlen hrun).1
    · intro hpos
      obtain ⟨table', hrun, -⟩ := assignCPUs_spec queueBits hlen hpos
      exact ⟨table', hrun⟩
  · have hentries := (assignCPUs_ok hlen hrun).2.2
    exact turn_of_entries hpos hfits fun c hc => hentries n c (HardwareInfo.isNode_lt hn) hn hc

/-- Six CPUs, the second of which is not available; the others belong to two nodes. -/
def scatteredCPUs : HardwareInfo := ⟨[0, -1, 1, 0, 1, 0], [true, true], 2⟩

/-- Queues 3 and 4 for node 0, queue 5 for node 1. -/
def twoRanges (n : Nat) : QueueRange := if n = 0 then ⟨3, 2⟩ else ⟨5, 1⟩

theorem node_goes_round_scattered :
    ∃ table', assignCPUs 8 scatteredCPUs twoRanges (List.replicate 6 0) = .ok table' ∧
      table' = [3, 0, 5, 4, 5, 3] ∧ GoesRound scatteredCPUs 0 3 2 table' ∧
      GoesRound scatteredCPUs 1 5 1 table' := by
  obtain ⟨hreturns, hround, -⟩ :=
    node_goes_round 8 scatteredCPUs twoRanges (List.replicate 6 0) rfl
  have hpos : ∀ n, 1 ≤ (twoRanges n).num := by
    intro n
    unfold twoRanges
    by_cases hn : n = 0
    · rw [if_pos hn]
      decide
    · rw [if_neg hn]
  obtain ⟨table', hrun⟩ := hreturns.mpr fun n c _ _ => hpos n
  refine ⟨table', hrun, ?_, (hround 0 (by decide) (hpos 0) (by decide)).1 table' hrun,
    (hround 1 (by decide) (hpos 1) (by decide)).1 table' hrun⟩
  exact Except.ok.inj (hrun.symm.trans rfl)

end Tagaspi
