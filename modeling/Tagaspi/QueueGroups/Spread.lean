import Tagaspi.QueueGroups.Distribution

/-!
# How a `CPU_RR` group spreads its queues over the NUMA nodes

Three questions about `setupCPURoundRobinData` after a first initialisation, for any
set of available nodes:

- Does it end? Not if there are fewer queues than nodes and node 0 is not available:
  the `while` loop never advances its node (`creation_ends_iff`).
- With fewer queues than nodes, who gets which queue? The `while` loop gives all of
  them to node 0, one after the other, and both loops count from queue 0 instead of
  from the first queue of the group (`shared_queues_iff`).
- With enough queues, is every queue used? A node gets one of the remaining queues if
  its number, not its position, is small enough, so that some of them are lost when
  nodes with small numbers are missing (`no_idle_queue_iff`).
-/

namespace Tagaspi

open Loops

variable {queueBits fuel : Nat} {topo : Topology} {garbage : Nat → QueueRange} {first num : Nat}

/-- The set-up of a group after a first initialisation. -/
def firstSetup (queueBits fuel : Nat) (topo : Topology) (garbage : Nat → QueueRange)
    (first num : Nat) : Except Fault (List Nat) :=
  setupCPURoundRobinData queueBits fuel (HardwareInfo.init topo .empty) garbage first num
    (List.replicate (HardwareInfo.init topo .empty).getMaxCPUs 0)

/-- The ranges of the nodes in it. -/
def firstRanges (queueBits fuel : Nat) (topo : Topology) (garbage : Nat → QueueRange)
    (first num : Nat) : Except Fault (Nat → QueueRange) :=
  nodeRanges queueBits fuel (HardwareInfo.init topo .empty) garbage first num
    (num / (HardwareInfo.init topo .empty).numAvailableNUMANodes)
    (num % (HardwareInfo.init topo .empty).numAvailableNUMANodes)

theorem firstSetup_eq :
    firstSetup queueBits fuel topo garbage first num =
      setupCPURoundRobinData queueBits fuel topo.describe garbage first num
        (List.replicate topo.describe.getMaxCPUs 0) := by
  unfold firstSetup
  rw [HardwareInfo.init_empty]

/-! ## Termination -/

/-- Every loop of the set-up ends, whatever the stack holds, and no index leaves its
array. -/
structure Terminates (queueBits : Nat) (topo : Topology) (first num : Nat) : Prop where
  loops : ∀ garbage, ∃ enough, ∀ fuel, enough ≤ fuel →
    firstSetup queueBits fuel topo garbage first num ≠ .error .outOfFuel
  indices : ∀ fuel garbage,
    firstSetup queueBits fuel topo garbage first num ≠ .error .outOfBounds

/-- The `while` loop gets past its first node, or is not entered. -/
def LoopEnds (topo : Topology) (num : Nat) : Prop :=
  (HardwareInfo.init topo .empty).numAvailableNUMANodes ≤ num ∨ num = 1 ∨ topo.nodeAvailable 0

theorem LoopEnds.node_zero (hends : LoopEnds topo num)
    (hfew : num < topo.describe.numAvailableNUMANodes) (htwo : 2 ≤ num) :
    topo.describe.isNode 0 := by
  unfold LoopEnds at hends
  rw [HardwareInfo.init_empty] at hends
  rcases hends with hc | hc | hc
  · omega
  · omega
  · exact Topology.isNode_describe.mpr hc

/-- The CPU passes end in a table or in a division by zero. -/
theorem assignCPUs_result {h : HardwareInfo} (hs : h.Sound) (nq : Nat → QueueRange)
    {table : List Nat} (hlen : table.length = h.getMaxCPUs) :
    (∃ table', assignCPUs queueBits h nq table = .ok table') ∨
      assignCPUs queueBits h nq table = .error .divideByZero := by
  by_cases hall : ∀ n, h.isNode n → 0 < (nq n).num
  · obtain ⟨table', hrun, -⟩ := assignCPUs_spec queueBits hlen fun n _ hn _ => hall n hn
    exact .inl ⟨table', hrun⟩
  · push Not at hall
    obtain ⟨n, hn, hzero⟩ := hall
    obtain ⟨c, hc⟩ := hs.exists_cpu n hn
    exact .inr (assignCPUs_fault hlen hn hc (Nat.le_zero.mp hzero))

theorem setup_distinct_total {h : HardwareInfo} {table : List Nat} (fuel : Nat)
    (garbage : Nat → QueueRange) (hs : h.Sound) (hlen : table.length = h.getMaxCPUs)
    (henough : h.numAvailableNUMANodes ≤ num) (hfirst : first < 2 ^ queueBits) :
    ∃ table', setupCPURoundRobinData queueBits fuel h garbage first num table = .ok table' := by
  obtain ⟨nq, hrun, hnq⟩ := distinctRanges_spec (h := h) (q := num / h.numAvailableNUMANodes)
    (r := num % h.numAvailableNUMANodes) garbage hfirst
  have hpos : ∀ n, h.isNode n → 0 < (nq n).num := by
    intro n hn
    rw [hnq n hn]
    exact nodeQueues_pos hs henough _ n
  obtain ⟨table', htable, -⟩ := assignCPUs_spec queueBits hlen fun n _ hn _ => hpos n hn
  exact ⟨table', by rw [setup_of_pos hs.pos, nodeRanges, if_pos henough, hrun, ok_bind, htable]⟩

/-- With fewer queues than nodes: a table, a division by zero, or a loop that is cut off. -/
theorem setup_shared_cases {h : HardwareInfo} {table : List Nat} (hs : h.Sound)
    (hlen : table.length = h.getMaxCPUs) (hpos : 0 < num) (hnum : num < 2 ^ numberBits)
    (hfew : num < h.numAvailableNUMANodes) (h0 : 2 ≤ num → h.isNode 0) :
    (fuel < num - 1 ∧
      setupCPURoundRobinData queueBits fuel h garbage first num table = .error .outOfFuel) ∨
    (∃ table', setupCPURoundRobinData queueBits fuel h garbage first num table = .ok table') ∨
    setupCPURoundRobinData queueBits fuel h garbage first num table = .error .divideByZero := by
  have hmax := hs.le_max
  rw [setup_of_lt hs hfew]
  by_cases hfuel : num - 1 ≤ fuel
  · rw [sharedQueues_spec hpos hnum (by omega) h0 hfuel, ok_bind]
    exact .inr (assignCPUs_result hs _ hlen)
  · have hle : num - 1 ≤ h.getMaxNUMANodes := by omega
    obtain hout | hok := @sharedQueues_safe queueBits h num garbage hpos hnum hle h0 fuel
    · rw [hout, error_bind]
      exact .inl ⟨by omega, rfl⟩
    · rw [hok, ok_bind]
      exact .inr (assignCPUs_result hs _ hlen)

theorem terminates_of_ends (hfirst : first < 2 ^ queueBits) (hpos : 1 ≤ num)
    (hnum : num < 2 ^ numberBits) (hends : LoopEnds topo num) :
    Terminates queueBits topo first num := by
  have hs := topo.sound_describe
  by_cases henough : topo.describe.numAvailableNUMANodes ≤ num
  · have htotal : ∀ fuel garbage, ∃ table,
        firstSetup queueBits fuel topo garbage first num = .ok table := by
      intro fuel garbage
      rw [firstSetup_eq]
      exact setup_distinct_total fuel garbage hs List.length_replicate henough hfirst
    refine ⟨fun garbage => ⟨0, fun fuel _ => ?_⟩, fun fuel garbage => ?_⟩
    · obtain ⟨table, hrun⟩ := htotal fuel garbage
      rw [hrun]
      exact fun hc => by cases hc
    · obtain ⟨table, hrun⟩ := htotal fuel garbage
      rw [hrun]
      exact fun hc => by cases hc
  · have hfew := Nat.lt_of_not_le henough
    have hcases : ∀ fuel garbage,
        (fuel < num - 1 ∧ firstSetup queueBits fuel topo garbage first num = .error .outOfFuel) ∨
        (∃ table, firstSetup queueBits fuel topo garbage first num = .ok table) ∨
        firstSetup queueBits fuel topo garbage first num = .error .divideByZero := by
      intro fuel garbage
      rw [firstSetup_eq]
      exact setup_shared_cases hs List.length_replicate hpos hnum hfew (hends.node_zero hfew)
    refine ⟨fun garbage => ⟨num, fun fuel hfuel => ?_⟩, fun fuel garbage => ?_⟩
    · rcases hcases fuel garbage with ⟨hlt, -⟩ | ⟨table, hrun⟩ | hrun
      · omega
      · rw [hrun]
        exact fun hc => by cases hc
      · rw [hrun]
        exact fun hc => by cases hc
    · rcases hcases fuel garbage with ⟨-, hrun⟩ | ⟨table, hrun⟩ | hrun <;> rw [hrun] <;>
        exact fun hc => by cases hc

/-- **The loop does not end** with fewer queues than nodes, unless node 0 is available. -/
theorem firstSetup_diverges (hpos : 1 ≤ num) (hnum : num < 2 ^ numberBits)
    (hends : ¬ LoopEnds topo num) :
    firstSetup queueBits fuel topo garbage first num = .error .outOfFuel := by
  unfold LoopEnds at hends
  rw [HardwareInfo.init_empty] at hends
  push Not at hends
  obtain ⟨hfew, hone, h0⟩ := hends
  rw [firstSetup_eq]
  exact setup_diverges topo.sound_describe hnum (by omega) hfew
    fun hn => h0 (Topology.isNode_describe.mp hn)

theorem ends_of_terminates (hpos : 1 ≤ num) (hnum : num < 2 ^ numberBits)
    (hterm : Terminates queueBits topo first num) : LoopEnds topo num := by
  by_contra hends
  obtain ⟨enough, hrun⟩ := hterm.loops fun _ => ⟨0, 0⟩
  exact hrun enough (Nat.le_refl _) (firstSetup_diverges hpos hnum hends)

/-- Every node that is available is reached by one of the loops. -/
def NoneSkipped (topo : Topology) (num : Nat) : Prop :=
  (HardwareInfo.init topo .empty).numAvailableNUMANodes ≤ num ∨
    ∀ n, 0 < n → n < num - 1 → ¬ topo.nodeAvailable n

/-- It returns a table, whatever the stack holds. -/
def Returns (queueBits : Nat) (topo : Topology) (first num : Nat) : Prop :=
  ∀ garbage, ∃ enough, ∀ fuel, enough ≤ fuel →
    ∃ table, firstSetup queueBits fuel topo garbage first num = .ok table

theorem returns_of_none_skipped (hfirst : first < 2 ^ queueBits) (hpos : 1 ≤ num)
    (hnum : num < 2 ^ numberBits) (hends : LoopEnds topo num) (hall : NoneSkipped topo num) :
    Returns queueBits topo first num := by
  have hs := topo.sound_describe
  intro garbage
  refine ⟨num, fun fuel hfuel => ?_⟩
  unfold NoneSkipped at hall
  rw [HardwareInfo.init_empty] at hall
  rw [firstSetup_eq]
  by_cases henough : topo.describe.numAvailableNUMANodes ≤ num
  · exact setup_distinct_total fuel garbage hs List.length_replicate henough hfirst
  · have hfew := Nat.lt_of_not_le henough
    refine setup_shared_total hs List.length_replicate hpos hnum hfew (hends.node_zero hfew)
      (by omega) fun n hn => ?_
    exact absurd (Topology.isNode_describe.mp hn.1) (hall.resolve_left henough n hn.2.1 hn.2.2)

theorem none_skipped_of_returns (hpos : 1 ≤ num) (hnum : num < 2 ^ numberBits)
    (hret : Returns queueBits topo first num) : LoopEnds topo num ∧ NoneSkipped topo num := by
  have hends : LoopEnds topo num := by
    by_contra hends
    obtain ⟨enough, hrun⟩ := hret fun _ => ⟨0, 0⟩
    obtain ⟨table, htable⟩ := hrun enough (Nat.le_refl _)
    rw [firstSetup_diverges hpos hnum hends] at htable
    cases htable
  refine ⟨hends, ?_⟩
  unfold NoneSkipped
  rw [HardwareInfo.init_empty]
  by_contra hskip
  push Not at hskip
  obtain ⟨hfew, n, hn, hlt, hav⟩ := hskip
  -- a zero on the stack is divided by
  obtain ⟨enough, hrun⟩ := hret fun _ => ⟨0, 0⟩
  obtain ⟨table, htable⟩ := hrun (max enough num) (Nat.le_max_left _ _)
  rw [firstSetup_eq, setup_shared_fault topo.sound_describe List.length_replicate hpos hnum hfew
    (hends.node_zero hfew) (by omega) ⟨Topology.isNode_describe.mpr hav, hn, hlt⟩ rfl] at htable
  cases htable

/-- **When creating a group ends.** Every loop of the set-up ends, with every index in
bounds, exactly if there are at least as many queues as available nodes, or one queue only,
or node 0 is available. It returns a table, without dividing by what the stack held, if
moreover no node is left out. -/
theorem creation_ends_iff (queueBits : Nat) (topo : Topology) (first num : Nat)
    (hfirst : first < 2 ^ queueBits) (hpos : 1 ≤ num) (hnum : num < 2 ^ numberBits) :
    (Terminates queueBits topo first num ↔ LoopEnds topo num) ∧
    (Returns queueBits topo first num ↔ LoopEnds topo num ∧ NoneSkipped topo num) := by
  refine ⟨⟨ends_of_terminates hpos hnum, terminates_of_ends hfirst hpos hnum⟩,
    none_skipped_of_returns hpos hnum, ?_⟩
  rintro ⟨hends, hall⟩
  exact returns_of_none_skipped hfirst hpos hnum hends hall

/-- Three CPUs, each in a node of its own. -/
def threeNodes : Topology where
  maxNode := 2
  possibleCPUs := 3
  isAvailable _ := true
  nodeOfCPU c := min c 2
  node_le := by decide
  exists_cpu := ⟨0, by decide⟩

/-- Two queues on three nodes: the `while` loop gives one of them to node 0. -/
theorem creation_ends_two : Terminates 8 threeNodes 3 2 ∧ Returns 8 threeNodes 3 2 := by
  obtain ⟨hterm, hret⟩ := creation_ends_iff 8 threeNodes 3 2 (by decide) (by decide) (by decide)
  have hends : LoopEnds threeNodes 2 := .inr (.inr (by decide))
  exact ⟨hterm.mpr hends, hret.mpr ⟨hends, .inr fun n hn hlt => by omega⟩⟩

/-- Three CPUs in the nodes 1, 2 and 3. -/
def pinnedTopology : Topology where
  maxNode := 3
  possibleCPUs := 3
  isAvailable _ := true
  nodeOfCPU c := c + 1
  node_le := by decide
  exists_cpu := ⟨0, by decide⟩

/-- Two queues on these nodes: the set-up never returns. -/
theorem creation_hangs : ¬ Terminates 8 pinnedTopology 0 2 := by
  intro hterm
  exact absurd (ends_of_terminates (by decide) (by decide) hterm) (by unfold LoopEnds; decide)

/-! ## Fewer queues than nodes -/

/-- The position of node `n` among the available nodes. -/
def nodePosition (topo : Topology) (n : Nat) : Nat :=
  nodesBelow (HardwareInfo.init topo .empty) n

/-- The queue that the node at position `k` should get: the first ones a queue of their own,
the others the last one. -/
def sharedQueue (first num k : Nat) : Nat := first + min k (num - 1)

/-- The queues are shared as they should be, whatever the stack holds: the range of every
available node is set, and its CPUs get the queue of it. -/
structure SharedByPosition (queueBits : Nat) (topo : Topology) (first num : Nat) : Prop where
  ranges : ∀ fuel garbage nq, firstRanges queueBits fuel topo garbage first num = .ok nq →
    ∀ n, topo.nodeAvailable n → nq n = ⟨sharedQueue first num (nodePosition topo n), 1⟩
  cpus : ∀ fuel garbage table, firstSetup queueBits fuel topo garbage first num = .ok table →
    ∀ c, topo.available c →
      table[c]? = some (sharedQueue first num (nodePosition topo (topo.nodeOfCPU c)))

theorem nodesBelow_mono {h : HardwareInfo} {m n : Nat} (hmn : m ≤ n) :
    nodesBelow h m ≤ nodesBelow h n := by
  induction hmn with
  | refl => exact Nat.le_refl _
  | step _ ih =>
    rw [Nat.succ_eq_add_one, nodesBelow_succ]
    exact ih.trans (Nat.le_add_right _ _)

theorem nodesBelow_le {h : HardwareInfo} (n : Nat) : nodesBelow h n ≤ n := by
  unfold nodesBelow
  exact List.countP_le_length.trans (Nat.le_of_eq List.length_range)

/-- All available nodes are below or at the last one. -/
theorem nodesBelow_lastNode (topo : Topology) :
    nodesBelow topo.describe topo.lastNode + 1 = topo.describe.numAvailableNUMANodes := by
  have hmax := nodesBelow_max (h := topo.describe)
  have hlen : topo.describe.getMaxNUMANodes = topo.lastNode + 1 := Topology.length_nodeBits _
  rw [hlen, nodesBelow_succ,
    if_pos (Topology.isNode_describe.mpr Topology.nodeAvailable_lastNode)] at hmax
  rw [hmax, topo.sound_describe.count]

/-- Where the loops end, the ranges are `sharedRanges`. -/
theorem firstRanges_eq {nq : Nat → QueueRange} (hpos : 1 ≤ num) (hnum : num < 2 ^ numberBits)
    (hfew : num < topo.describe.numAvailableNUMANodes) (hends : LoopEnds topo num)
    (hrun : firstRanges queueBits fuel topo garbage first num = .ok nq) :
    nq = sharedRanges queueBits topo.describe num garbage := by
  have hmax := topo.sound_describe.le_max
  unfold firstRanges at hrun
  rw [HardwareInfo.init_empty, nodeRanges, if_neg (Nat.not_le_of_lt hfew),
    Nat.mod_eq_of_lt hfew] at hrun
  have hle : num - 1 ≤ topo.describe.getMaxNUMANodes := by omega
  obtain hout | hok := @sharedQueues_safe queueBits topo.describe num garbage hpos hnum hle
    (hends.node_zero hfew) fuel
  · rw [hout] at hrun
    cases hrun
  · rw [hok] at hrun
    cases hrun
    rfl

theorem firstRanges_total (hpos : 1 ≤ num) (hnum : num < 2 ^ numberBits)
    (hfew : num < topo.describe.numAvailableNUMANodes) (hends : LoopEnds topo num)
    (garbage : Nat → QueueRange) :
    firstRanges queueBits num topo garbage first num =
      .ok (sharedRanges queueBits topo.describe num garbage) := by
  have hmax := topo.sound_describe.le_max
  unfold firstRanges
  rw [HardwareInfo.init_empty, nodeRanges, if_neg (Nat.not_le_of_lt hfew), Nat.mod_eq_of_lt hfew]
  exact sharedQueues_spec hpos hnum (by omega) (hends.node_zero hfew) (Nat.sub_le _ _)

/-- The code counts from queue 0, and gives node 0 the last of the queues of the first
nodes. -/
theorem first_zero_of_shared (hpos : 1 ≤ num) (hnum : num < 2 ^ numberBits)
    (hfits : first + num ≤ 2 ^ queueBits) (hfew : num < topo.describe.numAvailableNUMANodes)
    (hends : LoopEnds topo num) (hshared : SharedByPosition queueBits topo first num) :
    first = 0 ∧ num ≤ 2 := by
  have hranges := hshared.ranges num (fun _ => ⟨0, 0⟩) _
    (firstRanges_total hpos hnum hfew hends fun _ => ⟨0, 0⟩)
  -- the last node shares the last queue
  have hlast := nodesBelow_lastNode topo
  have hle := nodesBelow_le (h := topo.describe) topo.lastNode
  have hqueue := hranges topo.lastNode Topology.nodeAvailable_lastNode
  unfold nodePosition sharedQueue at hqueue
  rw [HardwareInfo.init_empty, sharedRanges, if_pos ⟨by omega,
    Topology.isNode_describe.mpr Topology.nodeAvailable_lastNode⟩, QueueRange.mk.injEq,
    Nat.mod_eq_of_lt (by omega)] at hqueue
  have hzero : first = 0 := by
    have := hqueue.1
    omega
  refine ⟨hzero, ?_⟩
  by_contra htwo
  -- node 0 is the first one
  have h0 := hends.node_zero hfew (by omega)
  have hqueue₀ := hranges 0 (Topology.isNode_describe.mp h0)
  unfold nodePosition sharedQueue at hqueue₀
  rw [HardwareInfo.init_empty, sharedRanges, if_neg (fun hc => by omega),
    if_pos ⟨rfl, by omega⟩, QueueRange.mk.injEq, Nat.mod_eq_of_lt (by omega)] at hqueue₀
  have hbelow : nodesBelow topo.describe 0 = 0 := rfl
  have := hqueue₀.1
  omega

/-- With at most two queues, from queue 0 on, the code does what it should. -/
theorem sharedRanges_of_two {n : Nat} (hpos : 1 ≤ num) (htwo : num ≤ 2)
    (hbits : num ≤ 2 ^ queueBits) (h0 : 2 ≤ num → topo.describe.isNode 0)
    (hn : topo.nodeAvailable n) :
    sharedRanges queueBits topo.describe num garbage n =
      ⟨sharedQueue 0 num (nodePosition topo n), 1⟩ := by
  have hnode := Topology.isNode_describe.mpr hn
  have hskip : ¬ Skipped topo.describe num n := by
    rintro ⟨-, h₁, h₂⟩
    omega
  rw [sharedRanges_reached hnode hskip, QueueRange.mk.injEq]
  refine ⟨?_, rfl⟩
  unfold sharedQueue nodePosition
  rw [HardwareInfo.init_empty]
  by_cases hle : num - 1 ≤ n
  · rw [if_pos hle, Nat.mod_eq_of_lt (by omega), Nat.zero_add]
    -- a later node comes after node 0
    have hpos' : num - 1 ≤ nodesBelow topo.describe n := by
      by_cases hone : num = 1
      · omega
      · have hmono := nodesBelow_mono (h := topo.describe) (show 1 ≤ n by omega)
        rw [nodesBelow_succ, if_pos (h0 (by omega))] at hmono
        omega
    omega
  · obtain rfl : n = 0 := by omega
    have hbelow : nodesBelow topo.describe 0 = 0 := rfl
    rw [if_neg hle, Nat.mod_eq_of_lt (by omega), hbelow]
    omega

theorem shared_of_two (hpos : 1 ≤ num) (htwo : num ≤ 2) (hbits : num ≤ 2 ^ queueBits)
    (hfew : num < topo.describe.numAvailableNUMANodes) (hends : LoopEnds topo num) :
    SharedByPosition queueBits topo 0 num := by
  have hnum : num < 2 ^ numberBits := Nat.lt_of_le_of_lt htwo (by decide)
  have hrange : ∀ garbage n, topo.nodeAvailable n →
      sharedRanges queueBits topo.describe num garbage n =
        ⟨sharedQueue 0 num (nodePosition topo n), 1⟩ := fun garbage n hn =>
    sharedRanges_of_two hpos htwo hbits (hends.node_zero hfew) hn
  refine ⟨fun fuel garbage nq hrun n hn => ?_, fun fuel garbage table hrun c hc => ?_⟩
  · rw [firstRanges_eq hpos hnum hfew hends hrun]
    exact hrange garbage n hn
  · rw [firstSetup_eq] at hrun
    obtain ⟨-, hentries⟩ := setup_shared_result topo.sound_describe List.length_replicate hpos hnum
      hfew hrun
    have hnode := Topology.isNode_describe.mpr (Topology.nodeAvailable_nodeOfCPU hc)
    rw [hentries _ c (HardwareInfo.isNode_lt hnode) hnode
      (Topology.isInNode_describe.mpr ⟨hc, rfl⟩), rangeQueue,
      hrange garbage _ (Topology.nodeAvailable_nodeOfCPU hc), Nat.mod_one, Nat.add_zero]
    refine congrArg some (Nat.mod_eq_of_lt ?_)
    show sharedQueue 0 num _ < _
    unfold sharedQueue
    omega

/-- **When the queues are shared as they should be**: where the set-up ends, exactly for the
groups of one or two queues that start at queue 0. -/
theorem shared_queues_iff (queueBits : Nat) (topo : Topology) (first num : Nat) (hpos : 1 ≤ num)
    (hnum : num < 2 ^ numberBits) (hfits : first + num ≤ 2 ^ queueBits)
    (hfew : num < (HardwareInfo.init topo .empty).numAvailableNUMANodes)
    (hterm : Terminates queueBits topo first num) :
    SharedByPosition queueBits topo first num ↔ first = 0 ∧ num ≤ 2 := by
  have hends := ends_of_terminates hpos hnum hterm
  rw [HardwareInfo.init_empty] at hfew
  constructor
  · exact first_zero_of_shared hpos hnum hfits hfew hends
  · rintro ⟨rfl, htwo⟩
    exact shared_of_two hpos htwo (by omega) hfew hends

/-- Queues 0 and 1 on three nodes: node 0 gets queue 0, the others share queue 1. -/
theorem shared_queues_two :
    Terminates 8 threeNodes 0 2 ∧ SharedByPosition 8 threeNodes 0 2 := by
  have hterm : Terminates 8 threeNodes 0 2 :=
    terminates_of_ends (by decide) (by decide) (by decide) (.inr (.inr (by decide)))
  exact ⟨hterm, (shared_queues_iff 8 threeNodes 0 2 (by decide) (by decide) (by decide)
    (by decide) hterm).mpr ⟨rfl, by decide⟩⟩

/-- A group of one queue, queue 3, on two nodes: CPU 0 gets queue 0. -/
theorem shared_queue_misses_first :
    Terminates 8 twoNodes 3 1 ∧
    firstSetup 8 0 twoNodes (fun _ => ⟨0, 0⟩) 3 1 = .ok [0, 0] ∧
    ¬ SharedByPosition 8 twoNodes 3 1 := by
  have hrun : firstSetup 8 0 twoNodes (fun _ => ⟨0, 0⟩) 3 1 = .ok [0, 0] := by rfl
  refine ⟨terminates_of_ends (by decide) (by decide) (by decide) (.inr (.inl rfl)), hrun, ?_⟩
  intro hshared
  have hcpu := hshared.cpus 0 (fun _ => ⟨0, 0⟩) _ hrun 0 (by decide)
  exact absurd hcpu (by decide)

/-! ## Enough queues -/

/-- The ranges of the available nodes cover every queue of the group. -/
def CoversAll (topo : Topology) (first num : Nat) (nq : Nat → QueueRange) : Prop :=
  ∀ queue, first ≤ queue → queue < first + num →
    ∃ n, topo.nodeAvailable n ∧ (nq n).first ≤ queue ∧ queue < (nq n).first + (nq n).num

/-- Their sizes differ by at most one. -/
def EvenSizes (topo : Topology) (nq : Nat → QueueRange) : Prop :=
  ∀ m n, topo.nodeAvailable m → topo.nodeAvailable n → (nq m).num ≤ (nq n).num + 1

section Cover

variable {h : HardwareInfo} {q r : Nat}

/-- The nodes below `k` get `q` queues each, and those below `r` one more. -/
theorem usedQueues_eq (k : Nat) :
    usedQueues h q r k = q * nodesBelow h k + nodesBelow h (min k r) := by
  induction k with
  | zero =>
    rw [Nat.zero_min]
    rfl
  | succ k ih =>
    rw [usedQueues, ih, nodesBelow_succ, Nat.mul_add]
    by_cases hkr : k < r
    · rw [Nat.min_eq_left hkr, Nat.min_eq_left (Nat.le_of_lt hkr), nodesBelow_succ]
      by_cases hk : h.isNode k
      · rw [if_pos hk, if_pos hk, nodeQueues, if_pos hkr]
        omega
      · rw [if_neg hk, if_neg hk]
        omega
    · rw [Nat.min_eq_right (Nat.le_of_not_lt hkr), Nat.min_eq_right (by omega)]
      by_cases hk : h.isNode k
      · rw [if_pos hk, if_pos hk, nodeQueues, if_neg hkr]
        omega
      · rw [if_neg hk, if_neg hk]
        omega

theorem nodesBelow_eq_iff (k : Nat) : nodesBelow h k = k ↔ ∀ n, n < k → h.isNode n := by
  unfold nodesBelow
  have hlen := List.countP_eq_length (p := fun n => decide (h.isNode n)) (l := List.range k)
  rw [List.length_range] at hlen
  rw [hlen]
  constructor
  · intro hall n hn
    exact of_decide_eq_true (hall n (List.mem_range.mpr hn))
  · intro hall n hn
    exact decide_eq_true (hall n (List.mem_range.mp hn))

/-- Every queue that is given away belongs to some node. -/
theorem exists_node (k : Nat) {d : Nat} (hd : d < usedQueues h q r k) :
    ∃ n, n < k ∧ h.isNode n ∧ usedQueues h q r n ≤ d ∧
      d < usedQueues h q r n + nodeQueues q r n := by
  induction k with
  | zero => exact absurd hd (Nat.not_lt_zero d)
  | succ k ih =>
    by_cases hlt : d < usedQueues h q r k
    · obtain ⟨n, hn, hrange⟩ := ih hlt
      exact ⟨n, Nat.lt_succ_of_lt hn, hrange⟩
    · rw [usedQueues] at hd
      by_cases hk : h.isNode k
      · rw [if_pos hk] at hd
        exact ⟨k, Nat.lt_succ_self k, hk, Nat.le_of_not_lt hlt, hd⟩
      · rw [if_neg hk, Nat.add_zero] at hd
        exact absurd hd hlt

/-- All queues are given away exactly if the nodes below the remainder are available. -/
theorem usedQueues_eq_num (hs : h.Sound) (num : Nat) :
    usedQueues h (num / h.numAvailableNUMANodes) (num % h.numAvailableNUMANodes)
        h.getMaxNUMANodes = num ↔
      ∀ n, n < num % h.numAvailableNUMANodes → h.isNode n := by
  have hrem := Nat.mod_lt num hs.pos
  have hmax := hs.le_max
  have hdiv := Nat.div_add_mod num h.numAvailableNUMANodes
  rw [← nodesBelow_eq_iff, usedQueues_eq, nodesBelow_max, ← hs.count,
    Nat.min_eq_right (by omega)]
  rw [Nat.mul_comm] at hdiv
  omega

end Cover

/-- The ranges cover the group exactly if all queues are given away. -/
theorem coversAll_iff {nq : Nat → QueueRange} {q r : Nat}
    (hnq : ∀ n, topo.describe.isNode n →
      nq n = ⟨first + usedQueues topo.describe q r n, nodeQueues q r n⟩)
    (hle : usedQueues topo.describe q r topo.describe.getMaxNUMANodes ≤ num) :
    CoversAll topo first num nq ↔
      usedQueues topo.describe q r topo.describe.getMaxNUMANodes = num := by
  constructor
  · intro hcover
    by_contra hne
    -- the first queue that is not given away
    obtain ⟨n, hn, -, hlt⟩ := hcover
      (first + usedQueues topo.describe q r topo.describe.getMaxNUMANodes) (Nat.le_add_right _ _)
      (by omega)
    have hnode := Topology.isNode_describe.mpr hn
    have hmono := usedQueues_mono (h := topo.describe) (q := q) (r := r)
      (HardwareInfo.isNode_lt hnode)
    rw [usedQueues, if_pos hnode] at hmono
    rw [hnq n hnode] at hlt
    simp only at hlt
    omega
  · intro hall queue hge hlt
    obtain ⟨d, rfl⟩ := Nat.exists_eq_add_of_le hge
    obtain ⟨n, -, hn, hrange⟩ := exists_node (h := topo.describe) (q := q) (r := r)
      topo.describe.getMaxNUMANodes (d := d) (by omega)
    refine ⟨n, Topology.isNode_describe.mp hn, ?_⟩
    rw [hnq n hn]
    simp only
    omega

/-- **When no queue is left idle.** With at least as many queues as available nodes, the
sizes of the ranges differ by at most one, and the ranges cover the group exactly if every
node with a number below the number of remaining queues is available. -/
theorem no_idle_queue_iff (queueBits fuel : Nat) (topo : Topology) (garbage : Nat → QueueRange)
    (first num : Nat) (henough : (HardwareInfo.init topo .empty).numAvailableNUMANodes ≤ num)
    (hfits : first + num ≤ 2 ^ queueBits) :
    ∃ nq, firstRanges queueBits fuel topo garbage first num = .ok nq ∧
      (CoversAll topo first num nq ∧ EvenSizes topo nq ↔
        ∀ n, n < num % (HardwareInfo.init topo .empty).numAvailableNUMANodes →
          topo.nodeAvailable n) := by
  have hs := topo.sound_describe
  unfold firstRanges
  rw [HardwareInfo.init_empty] at henough ⊢
  have hpos := hs.pos
  have hle := usedQueues_max_le hs num
  obtain ⟨nq, hrun, hnq⟩ := distinctRanges_spec (h := topo.describe)
    (q := num / topo.describe.numAvailableNUMANodes)
    (r := num % topo.describe.numAvailableNUMANodes) garbage (show first < 2 ^ queueBits by omega)
  refine ⟨nq, by rw [nodeRanges, if_pos henough, hrun], ?_⟩
  have hranges : ∀ n, topo.describe.isNode n → nq n =
      ⟨first + usedQueues topo.describe (num / topo.describe.numAvailableNUMANodes)
          (num % topo.describe.numAvailableNUMANodes) n,
        nodeQueues (num / topo.describe.numAvailableNUMANodes)
          (num % topo.describe.numAvailableNUMANodes) n⟩ := by
    intro n hn
    -- a range starts inside the group
    have hmono := usedQueues_mono (h := topo.describe)
      (q := num / topo.describe.numAvailableNUMANodes)
      (r := num % topo.describe.numAvailableNUMANodes) (HardwareInfo.isNode_lt hn)
    have hsize := nodeQueues_pos hs henough (num % topo.describe.numAvailableNUMANodes) n
    rw [usedQueues, if_pos hn] at hmono
    rw [hnq n hn, Nat.mod_eq_of_lt (by omega)]
  have heven : EvenSizes topo nq := by
    intro m n hm hn
    rw [hranges m (Topology.isNode_describe.mpr hm), hranges n (Topology.isNode_describe.mpr hn)]
    simp only [nodeQueues]
    split <;> omega
  rw [and_iff_left heven, coversAll_iff hranges hle, usedQueues_eq_num hs]
  exact forall_congr' fun n => imp_congr_right fun _ => Topology.isNode_describe

theorem no_idle_queue_two :
    ∃ nq, firstRanges 8 0 twoNodes (fun _ => ⟨0, 0⟩) 2 3 = .ok nq ∧ CoversAll twoNodes 2 3 nq := by
  obtain ⟨nq, hrun, hiff⟩ := no_idle_queue_iff 8 0 twoNodes (fun _ => ⟨0, 0⟩) 2 3 (by decide)
    (by decide)
  exact ⟨nq, hrun, (hiff.mpr (by decide)).1⟩

/-- Three queues, from queue 2 on, for the nodes 1 and 3: each gets one queue, and queue 4
is left idle. -/
theorem queue_left_idle :
    ∃ nq, firstRanges 8 0 sparseTopology (fun _ => ⟨0, 0⟩) 2 3 = .ok nq ∧
      nq 1 = ⟨2, 1⟩ ∧ nq 3 = ⟨3, 1⟩ ∧ ¬ CoversAll sparseTopology 2 3 nq := by
  refine ⟨_, rfl, rfl, rfl, fun hcover => ?_⟩
  obtain ⟨n, hn, hge, hlt⟩ := hcover 4 (by decide) (by decide)
  obtain ⟨c, -, -, rfl⟩ := hn
  have hnode : sparseTopology.nodeOfCPU c = 1 ∨ sparseTopology.nodeOfCPU c = 3 := by
    show (if c = 3 then 3 else 1) = 1 ∨ (if c = 3 then 3 else 1) = 3
    split
    · exact .inr rfl
    · exact .inl rfl
  rcases hnode with hnode | hnode <;> rw [hnode] at hlt <;> exact absurd hlt (by decide)

end Tagaspi
