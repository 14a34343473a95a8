import Tagaspi.QueueGroups.QueueGroup

/-!
# What the three passes of `setupCPURoundRobinData` compute

- `assignCPUs_spec`: the CPUs of a node go round the node's range, in the order of
  their numbers. The pass divides by zero exactly at an empty range
  (`assignCPUs_fault`).
- `distinctRanges_spec`: the ranges follow each other and together take at most
  `num` queues, although their sizes depend on the number of the node and not on
  its position among the available ones (`usedQueues_le`).
- `sharedQueues_spec`, `sharedQueues_diverges`: with fewer queues than nodes, only
  node 0 and the nodes from `num - 1` on get a queue, and without node 0 the
  `while` loop does not end.
- `numa_separation`: with enough queues, CPUs of different nodes get different
  queues.
-/

namespace Tagaspi

open Loops

variable {queueBits : Nat} {h : HardwareInfo}

theorem fetch_node {n : Nat} (hn : n < h.getMaxNUMANodes) :
    fetch h.numaNodeAvailability n = .ok (decide (h.isNode n)) := by
  have hget := List.getElem?_eq_getElem hn
  refine fetch_ok (hget.trans ?_)
  rw [Option.some.injEq, Bool.eq_iff_iff, decide_eq_true_iff]
  show _ ↔ h.numaNodeAvailability[n]? = some true
  rw [hget, Option.some.injEq]

theorem fetch_cpu {c : Nat} (hc : c < h.getMaxCPUs) :
    ∃ v, fetch h.cpuToNUMANode c = .ok v ∧ ∀ n : Nat, v = (n : Int) ↔ h.isInNode n c := by
  have hget := List.getElem?_eq_getElem hc
  refine ⟨_, fetch_ok hget, fun n => ?_⟩
  unfold HardwareInfo.isInNode
  rw [hget, Option.some.injEq]

/-! ## The CPUs of a node -/

/-- How many CPUs of node `n` come before CPU `c`. -/
def nodeRank (h : HardwareInfo) (n c : Nat) : Nat :=
  (List.range c).countP fun d => decide (h.isInNode n d)

theorem nodeRank_succ_pos {n c : Nat} (hc : h.isInNode n c) :
    nodeRank h n (c + 1) = nodeRank h n c + 1 := by
  unfold nodeRank
  rw [List.range_succ, List.countP_append, List.countP_singleton, if_pos (decide_eq_true hc)]

theorem nodeRank_succ_neg {n c : Nat} (hc : ¬ h.isInNode n c) :
    nodeRank h n (c + 1) = nodeRank h n c := by
  unfold nodeRank
  rw [List.range_succ, List.countP_append, List.countP_singleton,
    if_neg (fun hd => hc (of_decide_eq_true hd)), Nat.add_zero]

/-- The queue of CPU `c` when node `n` has range `range`. -/
def rangeQueue (queueBits : Nat) (h : HardwareInfo) (range : QueueRange) (n c : Nat) : Nat :=
  (range.first + nodeRank h n c % range.num) % 2 ^ queueBits

/-- What holds after the pass over the CPUs below `i`. -/
structure Passed (queueBits : Nat) (h : HardwareInfo) (range : QueueRange) (n : Nat)
    (table : List Nat) (i : Nat) (p : Pass) : Prop where
  length : p.assignationQueue.length = table.length
  offset : p.offset = nodeRank h n i % range.num
  entries : ∀ c, p.assignationQueue[c]? =
    if c < i ∧ h.isInNode n c then some (rangeQueue queueBits h range n c) else table[c]?

theorem passed_start (range : QueueRange) (n : Nat) (table : List Nat) :
    Passed queueBits h range n table 0 ⟨table, 0⟩ where
  length := rfl
  offset := (Nat.zero_mod _).symm
  entries c := by rw [if_neg (fun hc => Nat.not_lt_zero c hc.1)]

theorem passed_step {range : QueueRange} {n i : Nat} {table : List Nat} {p : Pass}
    (hpos : h.isInNode n i → 0 < range.num) (hlen : table.length = h.getMaxCPUs)
    (hi : i < h.getMaxCPUs) (hp : Passed queueBits h range n table i p) :
    ∃ p', assignCPU queueBits h range n i p = .ok p' ∧
      Passed queueBits h range n table (i + 1) p' := by
  obtain ⟨v, hv, hiff⟩ := fetch_cpu hi
  unfold assignCPU
  rw [hv, ok_bind]
  by_cases hin : h.isInNode n i
  · rw [if_pos ((hiff n).mpr hin), modulo_ok (Nat.ne_of_gt (hpos hin)), ok_bind]
    refine ⟨_, rfl, ?_, ?_, ?_⟩
    · rw [List.length_set, hp.length]
    · show (p.offset + 1) % range.num = _
      rw [hp.offset, nodeRank_succ_pos hin, Nat.mod_add_mod]
    · intro c
      show (p.assignationQueue.set i ((range.first + p.offset) % 2 ^ queueBits))[c]? = _
      rw [List.getElem?_set]
      by_cases hci : i = c
      · subst hci
        rw [if_pos rfl, if_pos (by rw [hp.length, hlen]; exact hi),
          if_pos ⟨Nat.lt_succ_self i, hin⟩, hp.offset]
        rfl
      · rw [if_neg hci, hp.entries c]
        exact if_congr (and_congr_left fun _ => by omega) rfl rfl
  · rw [if_neg (fun hvn => hin ((hiff n).mp hvn))]
    refine ⟨p, rfl, hp.length, ?_, ?_⟩
    · rw [hp.offset, nodeRank_succ_neg hin]
    · intro c
      rw [hp.entries c]
      refine if_congr ?_ rfl rfl
      constructor
      · rintro ⟨hlt, hc⟩
        exact ⟨by omega, hc⟩
      · rintro ⟨hlt, hc⟩
        have hne : c ≠ i := by
          rintro rfl
          exact hin hc
        exact ⟨by omega, hc⟩

/-- **One node's pass** sets the entries of the node's CPUs and no others. -/
theorem assignNode_spec {numaQueues : Nat → QueueRange} {n : Nat} {table : List Nat}
    (hlen : table.length = h.getMaxCPUs) (hn : n < h.getMaxNUMANodes)
    (hpos : ∀ c, h.isNode n → h.isInNode n c → 0 < (numaQueues n).num) :
    ∃ table', assignNode queueBits h numaQueues n table = .ok table' ∧
      table'.length = table.length ∧
      ∀ c, table'[c]? = if h.isNode n ∧ h.isInNode n c
        then some (rangeQueue queueBits h (numaQueues n) n c) else table[c]? := by
  unfold assignNode
  rw [fetch_node hn, ok_bind]
  by_cases hnode : h.isNode n
  · rw [if_pos (decide_eq_true hnode)]
    obtain ⟨p, hp, hpassed⟩ := forRange_total
      (I := Passed queueBits h (numaQueues n) n table) (Nat.zero_le h.getMaxCPUs)
      (passed_start _ _ _) fun i p _ hi hI => passed_step (hpos i hnode) hlen hi hI
    rw [hp, ok_bind]
    refine ⟨_, rfl, hpassed.length, fun c => ?_⟩
    rw [hpassed.entries c]
    refine if_congr ?_ rfl rfl
    exact ⟨fun hc => ⟨hnode, hc.2⟩, fun hc => ⟨HardwareInfo.isInNode_lt hc.2, hc.2⟩⟩
  · rw [if_neg (fun hd => hnode (of_decide_eq_true hd))]
    refine ⟨table, rfl, rfl, fun c => ?_⟩
    rw [if_neg (fun hc => hnode hc.1)]

/-- The entries of the CPUs of the nodes below `i`. -/
def Assigned (queueBits : Nat) (h : HardwareInfo) (numaQueues : Nat → QueueRange) (i : Nat)
    (table : List Nat) : Prop :=
  table.length = h.getMaxCPUs ∧ ∀ n c, n < i → h.isNode n → h.isInNode n c →
    table[c]? = some (rangeQueue queueBits h (numaQueues n) n c)

theorem isInNode_unique {m n c : Nat} (hm : h.isInNode m c) (hn : h.isInNode n c) : m = n := by
  unfold HardwareInfo.isInNode at hm hn
  rw [hm, Option.some.injEq] at hn
  exact Int.ofNat_inj.mp hn

theorem assigned_step {numaQueues : Nat → QueueRange} {i : Nat} {table : List Nat}
    (hi : i < h.getMaxNUMANodes)
    (hpos : ∀ c, h.isNode i → h.isInNode i c → 0 < (numaQueues i).num)
    (ht : Assigned queueBits h numaQueues i table) :
    ∃ table', assignNode queueBits h numaQueues i table = .ok table' ∧
      Assigned queueBits h numaQueues (i + 1) table' := by
  obtain ⟨table', hrun, hlen, hentries⟩ := assignNode_spec ht.1 hi hpos
  refine ⟨table', hrun, hlen.trans ht.1, fun n c hn hnode hin => ?_⟩
  rw [hentries c]
  by_cases hni : n = i
  · subst hni
    rw [if_pos ⟨hnode, hin⟩]
  · rw [if_neg (fun hc => hni (isInNode_unique hin hc.2))]
    exact ht.2 n c (by omega) hnode hin

/-- **The CPU passes**: every CPU of an available node gets a queue of the node's range. -/
theorem assignCPUs_spec (queueBits : Nat) {numaQueues : Nat → QueueRange} {table : List Nat}
    (hlen : table.length = h.getMaxCPUs)
    (hpos : ∀ n c, h.isNode n → h.isInNode n c → 0 < (numaQueues n).num) :
    ∃ table', assignCPUs queueBits h numaQueues table = .ok table' ∧
      Assigned queueBits h numaQueues h.getMaxNUMANodes table' :=
  forRange_total (I := Assigned queueBits h numaQueues) (Nat.zero_le _)
    ⟨hlen, fun n _ hn => absurd hn (Nat.not_lt_zero n)⟩
    fun i _ _ hi hI => assigned_step hi (hpos i) hI

/-- A node with an empty range: its first CPU makes the pass divide by zero. -/
theorem assignNode_fault {numaQueues : Nat → QueueRange} {n c : Nat} {table : List Nat}
    (hnode : h.isNode n) (hc : h.isInNode n c) (hzero : (numaQueues n).num = 0) :
    assignNode queueBits h numaQueues n table = .error .divideByZero := by
  have hex : ∃ c, h.isInNode n c := ⟨c, hc⟩
  unfold assignNode
  rw [fetch_node (HardwareInfo.isNode_lt hnode), ok_bind, if_pos (decide_eq_true hnode)]
  -- nothing happens at the CPUs before the first one of the node
  rw [forRange_fault (I := fun _ _ => True) (k := Nat.find hex) (Nat.zero_le _)
    (HardwareInfo.isInNode_lt (Nat.find_spec hex)) trivial ?_ ?_, error_bind]
  · intro i p _ hi _
    obtain ⟨v, hv, hiff⟩ := fetch_cpu (h := h)
      (hi.trans (HardwareInfo.isInNode_lt (Nat.find_spec hex)))
    refine ⟨p, ?_, trivial⟩
    unfold assignCPU
    rw [hv, ok_bind, if_neg (fun hvn => Nat.find_min hex hi ((hiff n).mp hvn))]
  · intro p _
    obtain ⟨v, hv, hiff⟩ := fetch_cpu (HardwareInfo.isInNode_lt (Nat.find_spec hex))
    unfold assignCPU
    rw [hv, ok_bind, if_pos ((hiff n).mpr (Nat.find_spec hex)), modulo, if_pos hzero, error_bind]

/-- **The CPU passes divide by zero** if some available node has CPUs and an empty range. -/
theorem assignCPUs_fault {numaQueues : Nat → QueueRange} {n c : Nat} {table : List Nat}
    (hlen : table.length = h.getMaxCPUs) (hnode : h.isNode n) (hc : h.isInNode n c)
    (hzero : (numaQueues n).num = 0) :
    assignCPUs queueBits h numaQueues table = .error .divideByZero := by
  classical
  have hex : ∃ n, h.isNode n ∧ (∃ c, h.isInNode n c) ∧ (numaQueues n).num = 0 :=
    ⟨n, hnode, ⟨c, hc⟩, hzero⟩
  obtain ⟨hfirst, ⟨d, hd⟩, hfzero⟩ := Nat.find_spec hex
  refine forRange_fault (I := Assigned queueBits h numaQueues) (k := Nat.find hex) (Nat.zero_le _)
    (HardwareInfo.isNode_lt hfirst) ⟨hlen, fun n _ hn => absurd hn (Nat.not_lt_zero n)⟩ ?_ ?_
  · intro i t _ hi hI
    refine assigned_step (hi.trans (HardwareInfo.isNode_lt hfirst)) (fun c hn hc => ?_) hI
    exact Nat.pos_of_ne_zero fun hz => Nat.find_min hex hi ⟨hn, ⟨c, hc⟩, hz⟩
  · intro t _
    exact assignNode_fault hfirst hd hfzero

/-- What a run that returns says of the ranges and of the table. -/
theorem assignCPUs_ok {numaQueues : Nat → QueueRange} {table table' : List Nat}
    (hlen : table.length = h.getMaxCPUs)
    (hrun : assignCPUs queueBits h numaQueues table = .ok table') :
    (∀ n c, h.isNode n → h.isInNode n c → 0 < (numaQueues n).num) ∧
      Assigned queueBits h numaQueues h.getMaxNUMANodes table' := by
  have hpos : ∀ n c, h.isNode n → h.isInNode n c → 0 < (numaQueues n).num := by
    intro n c hn hc
    refine Nat.pos_of_ne_zero fun hzero => ?_
    rw [assignCPUs_fault hlen hn hc hzero] at hrun
    cases hrun
  obtain ⟨t, ht, hentries⟩ := assignCPUs_spec queueBits hlen hpos
  rw [ht] at hrun
  cases hrun
  exact ⟨hpos, hentries⟩

/-! ## Ranges of their own -/

section Distinct

variable (h) (q r : Nat)

/-- How many of the nodes below `k` are available. -/
def nodesBelow (k : Nat) : Nat := (List.range k).countP fun n => decide (h.isNode n)

/-- How many queues the available nodes below `k` get. -/
def usedQueues : Nat → Nat
  | 0 => 0
  | k + 1 => usedQueues k + if h.isNode k then nodeQueues q r k else 0

variable {h q r}

theorem nodesBelow_succ (k : Nat) :
    nodesBelow h (k + 1) = nodesBelow h k + if h.isNode k then 1 else 0 := by
  unfold nodesBelow
  rw [List.range_succ, List.countP_append, List.countP_singleton]
  refine congrArg _ (if_congr ?_ rfl rfl)
  exact decide_eq_true_iff

theorem nodesBelow_max : nodesBelow h h.getMaxNUMANodes = h.numaNodeAvailability.countP id := by
  have hmap : (List.range h.getMaxNUMANodes).map (fun n => decide (h.isNode n)) =
      h.numaNodeAvailability := by
    refine List.ext_getElem? fun n => ?_
    rw [List.getElem?_map]
    by_cases hn : n < h.getMaxNUMANodes
    · rw [List.getElem?_range hn, Option.map_some]
      have hfetch := fetch_node hn
      unfold fetch at hfetch
      rw [List.getElem?_eq_getElem hn] at hfetch ⊢
      exact congrArg some (Except.ok.inj hfetch).symm
    · rw [List.getElem?_eq_none (by rw [List.length_range]; omega), Option.map_none]
      exact (List.getElem?_eq_none (Nat.le_of_not_lt hn)).symm
  unfold nodesBelow
  conv_rhs => rw [← hmap, List.countP_map]
  rfl

theorem usedQueues_mono {k m : Nat} (hkm : k ≤ m) : usedQueues h q r k ≤ usedQueues h q r m := by
  induction hkm with
  | refl => exact Nat.le_refl _
  | step _ ih => exact ih.trans (Nat.le_add_right _ _)

/-- A node's number is at least its position among the available ones, so that at most
`r` nodes get the extra queue. -/
theorem usedQueues_le (k : Nat) : usedQueues h q r k ≤ q * nodesBelow h k + min k r := by
  induction k with
  | zero => exact Nat.zero_le _
  | succ k ih =>
    rw [usedQueues, nodesBelow_succ]
    by_cases hk : h.isNode k
    · rw [if_pos hk, if_pos hk, Nat.mul_add, Nat.mul_one]
      unfold nodeQueues
      by_cases hr : k < r
      · rw [if_pos hr]
        omega
      · rw [if_neg hr]
        omega
    · rw [if_neg hk, if_neg hk, Nat.add_zero, Nat.add_zero]
      omega

theorem usedQueues_max_le (hs : h.Sound) (num : Nat) :
    usedQueues h (num / h.numAvailableNUMANodes) (num % h.numAvailableNUMANodes)
      h.getMaxNUMANodes ≤ num := by
  refine (usedQueues_le _).trans ?_
  rw [nodesBelow_max, ← hs.count]
  have hdiv := Nat.div_add_mod num h.numAvailableNUMANodes
  rw [Nat.mul_comm] at hdiv
  omega

/-- The ranges of the available nodes below `i` follow each other from `first` on. -/
structure Ranged (queueBits : Nat) (h : HardwareInfo) (q r first i : Nat) (s : Split) : Prop where
  queue : s.queue = (first + usedQueues h q r i) % 2 ^ queueBits
  ranges : ∀ n, n < i → h.isNode n → s.numaQueues n =
    ⟨(first + usedQueues h q r n) % 2 ^ queueBits, nodeQueues q r n⟩

theorem ranged_step {first i : Nat} {s : Split} (hi : i < h.getMaxNUMANodes)
    (hs : Ranged queueBits h q r first i s) :
    ∃ s', giveRange queueBits h q r i s = .ok s' ∧ Ranged queueBits h q r first (i + 1) s' := by
  unfold giveRange
  rw [fetch_node hi, ok_bind]
  by_cases hnode : h.isNode i
  · rw [if_pos (decide_eq_true hnode)]
    refine ⟨_, rfl, ?_, fun n hn hav => ?_⟩
    · show (s.queue + nodeQueues q r i) % 2 ^ queueBits = _
      rw [hs.queue, usedQueues, if_pos hnode, Nat.mod_add_mod, Nat.add_assoc]
    · show Function.update s.numaQueues i _ n = _
      by_cases hni : n = i
      · subst hni
        rw [Function.update_self, hs.queue]
      · rw [Function.update_of_ne hni]
        exact hs.ranges n (by omega) hav
  · rw [if_neg (fun hd => hnode (of_decide_eq_true hd))]
    refine ⟨s, rfl, ?_, fun n hn hav => ?_⟩
    · rw [usedQueues, if_neg hnode, Nat.add_zero]
      exact hs.queue
    · have hni : n ≠ i := by
        rintro rfl
        exact hnode hav
      exact hs.ranges n (by omega) hav

/-- **The distinct ranges.** -/
theorem distinctRanges_spec {first : Nat} (garbage : Nat → QueueRange)
    (hfirst : first < 2 ^ queueBits) :
    ∃ numaQueues, distinctRanges queueBits h q r first garbage = .ok numaQueues ∧
      ∀ n, h.isNode n → numaQueues n =
        ⟨(first + usedQueues h q r n) % 2 ^ queueBits, nodeQueues q r n⟩ := by
  have hstart : Ranged queueBits h q r first 0 ⟨garbage, first⟩ :=
    ⟨(Nat.mod_eq_of_lt hfirst).symm, fun n hn => absurd hn (Nat.not_lt_zero n)⟩
  obtain ⟨s, hrun, hs⟩ := forRange_total (Nat.zero_le h.getMaxNUMANodes) hstart
    fun i s _ hi hI => ranged_step hi hI
  unfold distinctRanges
  rw [hrun, ok_bind]
  exact ⟨_, rfl, fun n hn => hs.ranges n (HardwareInfo.isNode_lt hn) hn⟩

end Distinct

/-! ## Shared queues -/

section Shared

/-- What the two loops leave in the array: the `while` loop gives all its queues to node
0, one after the other, and the nodes between 0 and `num - 1` keep what they had. -/
def sharedRanges (queueBits : Nat) (h : HardwareInfo) (num : Nat) (garbage : Nat → QueueRange)
    (n : Nat) : QueueRange :=
  if num - 1 ≤ n ∧ h.isNode n then ⟨(num - 1) % 2 ^ queueBits, 1⟩
  else if n = 0 ∧ 2 ≤ num then ⟨(num - 2) % 2 ^ queueBits, 1⟩
  else garbage n

/-- The state of the `while` loop, always at node 0. -/
structure Sharing (queueBits num : Nat) (garbage : Nat → QueueRange) (s : Share) : Prop where
  numa : s.numa = 0
  numAssigned : s.numAssigned ≤ num - 1
  ranges : ∀ n, s.numaQueues n = if n = 0 ∧ 0 < s.numAssigned
    then ⟨(s.numAssigned - 1) % 2 ^ queueBits, 1⟩ else garbage n

variable {num : Nat} {garbage : Nat → QueueRange}

theorem sharing_start : Sharing queueBits num garbage ⟨garbage, 0, 0⟩ where
  numa := rfl
  numAssigned := Nat.zero_le _
  ranges n := by rw [if_neg (fun hn => Nat.lt_irrefl 0 hn.2)]

theorem sharing_step {s : Share} (h0 : h.isNode 0) (hs : Sharing queueBits num garbage s)
    (hlt : s.numAssigned < num - 1) :
    ∃ s', giveOne queueBits h s = .ok s' ∧ Sharing queueBits num garbage s' ∧
      s'.numAssigned = s.numAssigned + 1 := by
  unfold giveOne
  rw [hs.numa, fetch_node (HardwareInfo.isNode_lt h0), ok_bind, if_pos (decide_eq_true h0)]
  refine ⟨_, rfl, ⟨rfl, hlt, fun n => ?_⟩, rfl⟩
  show Function.update s.numaQueues 0 _ n = if n = 0 ∧ 0 < s.numAssigned + 1 then _ else _
  by_cases hn : n = 0
  · subst hn
    rw [Function.update_self, if_pos ⟨rfl, Nat.succ_pos _⟩]
    rfl
  · rw [Function.update_of_ne hn, hs.ranges n, if_neg (fun hc => hn hc.1),
      if_neg (fun hc => hn hc.1)]

/-- The `for` loop after the `while` loop. -/
theorem giveLast_spec {s : Share} (hpos : 0 < num) (hnum : num < 2 ^ numberBits)
    (hle : num - 1 ≤ h.getMaxNUMANodes) (hs : Sharing queueBits num garbage s)
    (hend : s.numAssigned = num - 1) :
    forRange (predSize num) h.getMaxNUMANodes (giveLast queueBits h num) s.numaQueues =
      .ok (sharedRanges queueBits h num garbage) := by
  have hpred := predSize_eq hpos (hnum.trans (by decide))
  -- after the nodes below `i`
  have hstep : ∀ i nq, num - 1 ≤ i → i < h.getMaxNUMANodes →
      (∀ n, nq n = if num - 1 ≤ n ∧ n < i ∧ h.isNode n
        then ⟨(num - 1) % 2 ^ queueBits, 1⟩ else s.numaQueues n) →
      ∃ nq', giveLast queueBits h num i nq = .ok nq' ∧
        ∀ n, nq' n = if num - 1 ≤ n ∧ n < i + 1 ∧ h.isNode n
          then ⟨(num - 1) % 2 ^ queueBits, 1⟩ else s.numaQueues n := by
    intro i nq hlo hi hnq
    unfold giveLast
    rw [fetch_node hi, ok_bind, hpred]
    by_cases hnode : h.isNode i
    · rw [if_pos (decide_eq_true hnode)]
      refine ⟨_, rfl, fun n => ?_⟩
      by_cases hni : n = i
      · subst hni
        rw [Function.update_self, if_pos ⟨hlo, Nat.lt_succ_self n, hnode⟩]
      · rw [Function.update_of_ne hni, hnq n]
        exact if_congr (and_congr_right fun _ => and_congr_left fun _ => by omega) rfl rfl
    · rw [if_neg (fun hd => hnode (of_decide_eq_true hd))]
      refine ⟨nq, rfl, fun n => ?_⟩
      rw [hnq n]
      refine if_congr (and_congr_right fun _ => and_congr_left fun hn => ?_) rfl rfl
      have hni : n ≠ i := by
        rintro rfl
        exact hnode hn
      omega
  obtain ⟨nq, hrun, hnq⟩ := forRange_total hle
    (fun n => by rw [if_neg (fun hc => absurd hc.1 (Nat.not_le_of_lt hc.2.1))]) hstep
  rw [hpred, hrun]
  refine congrArg Except.ok (funext fun n => ?_)
  rw [hnq n, hs.ranges n, hend]
  unfold sharedRanges
  refine if_congr ?_ rfl (if_congr ?_ rfl rfl)
  · exact ⟨fun hc => ⟨hc.1, hc.2.2⟩, fun hc => ⟨hc.1, HardwareInfo.isNode_lt hc.2, hc.2⟩⟩
  · omega

theorem cond_iff (hpos : 0 < num) (hnum : num < 2 ^ numberBits) (s : Share) :
    decide (s.numAssigned < predSize num) = true ↔ s.numAssigned < num - 1 := by
  rw [decide_eq_true_iff, predSize_eq hpos (hnum.trans (by decide))]

theorem sharing_end (hpos : 0 < num) (hnum : num < 2 ^ numberBits) {s : Share}
    (hs : Sharing queueBits num garbage s)
    (hend : decide (s.numAssigned < predSize num) = false) : s.numAssigned = num - 1 := by
  have hnot := mt (cond_iff hpos hnum s).mpr (by rw [hend]; exact Bool.false_ne_true)
  have := hs.numAssigned
  omega

/-- With node 0 available (or nothing to do) the `while` loop ends. -/
theorem sharedQueues_spec (hpos : 0 < num) (hnum : num < 2 ^ numberBits)
    (hle : num - 1 ≤ h.getMaxNUMANodes) (h0 : 2 ≤ num → h.isNode 0) {fuel : Nat}
    (hfuel : num - 1 ≤ fuel) :
    sharedQueues queueBits fuel h num garbage = .ok (sharedRanges queueBits h num garbage) := by
  have hstep : ∀ s, Sharing queueBits num garbage s →
      decide (s.numAssigned < predSize num) = true → ∃ s', giveOne queueBits h s = .ok s' ∧
        Sharing queueBits num garbage s' ∧ num - 1 - s'.numAssigned < num - 1 - s.numAssigned := by
    intro s hs hc
    have hlt := (cond_iff hpos hnum s).mp hc
    obtain ⟨s', hrun, hs', hnext⟩ := sharing_step (h0 (by omega)) hs hlt
    exact ⟨s', hrun, hs', by omega⟩
  obtain ⟨s, hrun, hs, hend⟩ := whileLoop_total (fun s => num - 1 - s.numAssigned) hstep fuel
    _ sharing_start hfuel
  unfold sharedQueues
  rw [hrun, ok_bind]
  exact giveLast_spec hpos hnum hle hs (sharing_end hpos hnum hs hend)

/-- With too little fuel nothing but the cut-off stops it. -/
theorem sharedQueues_safe (hpos : 0 < num) (hnum : num < 2 ^ numberBits)
    (hle : num - 1 ≤ h.getMaxNUMANodes) (h0 : 2 ≤ num → h.isNode 0) (fuel : Nat) :
    sharedQueues queueBits fuel h num garbage = .error .outOfFuel ∨
    sharedQueues queueBits fuel h num garbage = .ok (sharedRanges queueBits h num garbage) := by
  have hstep : ∀ s, Sharing queueBits num garbage s →
      decide (s.numAssigned < predSize num) = true → ∃ s', giveOne queueBits h s = .ok s' ∧
        Sharing queueBits num garbage s' := by
    intro s hs hc
    have hlt := (cond_iff hpos hnum s).mp hc
    obtain ⟨s', hrun, hs', -⟩ := sharing_step (h0 (by omega)) hs hlt
    exact ⟨s', hrun, hs'⟩
  unfold sharedQueues
  obtain hout | ⟨s, hrun, hs, hend⟩ := whileLoop_safe hstep fuel _ sharing_start
  · rw [hout]
    exact .inl rfl
  · rw [hrun, ok_bind]
    exact .inr (giveLast_spec hpos hnum hle hs (sharing_end hpos hnum hs hend))

/-- Without node 0 the loop does not get past it. -/
theorem sharedQueues_diverges (hnum : num < 2 ^ numberBits) (htwo : 2 ≤ num)
    (hnodes : 0 < h.getMaxNUMANodes) (h0 : ¬ h.isNode 0) (fuel : Nat) :
    sharedQueues queueBits fuel h num garbage = .error .outOfFuel := by
  have hstep : ∀ s : Share, s.numa = 0 ∧ s.numAssigned = 0 →
      decide (s.numAssigned < predSize num) = true ∧
        ∃ s', giveOne queueBits h s = .ok s' ∧ s'.numa = 0 ∧ s'.numAssigned = 0 := by
    rintro s ⟨hnuma, hzero⟩
    refine ⟨(cond_iff (by omega) hnum s).mpr (by omega), s, ?_, hnuma, hzero⟩
    unfold giveOne
    rw [hnuma, fetch_node hnodes, ok_bind, if_neg (fun hd => h0 (of_decide_eq_true hd))]
  unfold sharedQueues
  rw [whileLoop_diverges hstep fuel _ ⟨rfl, rfl⟩, error_bind]

end Shared

/-! ## The whole set-up -/

section Setup

variable {garbage : Nat → QueueRange} {first num fuel : Nat} {table : List Nat}

theorem setup_of_pos (hpos : 0 < h.numAvailableNUMANodes) :
    setupCPURoundRobinData queueBits fuel h garbage first num table =
      (nodeRanges queueBits fuel h garbage first num (num / h.numAvailableNUMANodes)
        (num % h.numAvailableNUMANodes) >>= fun nq => assignCPUs queueBits h nq table) := by
  unfold setupCPURoundRobinData
  rw [divide_ok (Nat.ne_of_gt hpos), modulo_ok (Nat.ne_of_gt hpos), ok_bind, ok_bind]

/-- A count of zero nodes, as a second initialisation leaves it. -/
theorem setup_no_nodes (hzero : h.numAvailableNUMANodes = 0) :
    setupCPURoundRobinData queueBits fuel h garbage first num table = .error .divideByZero := by
  unfold setupCPURoundRobinData
  rw [divide, if_pos hzero, error_bind]

theorem nodeQueues_pos (hs : h.Sound) (henough : h.numAvailableNUMANodes ≤ num) (r n : Nat) :
    0 < nodeQueues (num / h.numAvailableNUMANodes) r n := by
  have := Nat.div_pos henough hs.pos
  unfold nodeQueues
  omega

/-- **Enough queues**: node `n` takes its queues after those of the nodes before it. -/
theorem setup_distinct (fuel : Nat) (garbage : Nat → QueueRange) (hs : h.Sound)
    (hlen : table.length = h.getMaxCPUs) (henough : h.numAvailableNUMANodes ≤ num)
    (hfits : first + num ≤ 2 ^ queueBits) :
    ∃ table', setupCPURoundRobinData queueBits fuel h garbage first num table = .ok table' ∧
      ∀ n c, h.isNode n → h.isInNode n c → ∃ k,
        table'[c]? = some (first +
          usedQueues h (num / h.numAvailableNUMANodes) (num % h.numAvailableNUMANodes) n + k) ∧
        k < nodeQueues (num / h.numAvailableNUMANodes) (num % h.numAvailableNUMANodes) n ∧
        usedQueues h (num / h.numAvailableNUMANodes) (num % h.numAvailableNUMANodes) n +
          nodeQueues (num / h.numAvailableNUMANodes) (num % h.numAvailableNUMANodes) n ≤ num := by
  have hpos := hs.pos
  obtain ⟨nq, hrun, hnq⟩ := distinctRanges_spec (h := h) (q := num / h.numAvailableNUMANodes)
    (r := num % h.numAvailableNUMANodes) garbage (show first < 2 ^ queueBits by omega)
  have hnum : ∀ n, h.isNode n → 0 < (nq n).num := by
    intro n hn
    rw [hnq n hn]
    exact nodeQueues_pos hs henough _ n
  obtain ⟨table', htable, -, hentries⟩ := assignCPUs_spec queueBits hlen fun n _ hn _ => hnum n hn
  refine ⟨table', ?_, fun n c hn hc => ?_⟩
  · rw [setup_of_pos hpos, nodeRanges, if_pos henough, hrun, ok_bind, htable]
  · have hlt := Nat.mod_lt (nodeRank h n c) (hnum n hn)
    rw [hnq n hn] at hlt
    -- the range ends inside the group, so that the ids are not truncated
    have hbound := (usedQueues_mono (HardwareInfo.isNode_lt hn)).trans (usedQueues_max_le hs num)
    rw [usedQueues, if_pos hn] at hbound
    refine ⟨_, ?_, hlt, hbound⟩
    rw [hentries n c (HardwareInfo.isNode_lt hn) hn hc, rangeQueue, hnq n hn, Nat.mod_add_mod]
    rw [Nat.mod_eq_of_lt]
    simp only at hlt ⊢
    omega

/-- With fewer queues than nodes, the set-up shares them. -/
theorem setup_of_lt (hs : h.Sound) (hfew : num < h.numAvailableNUMANodes) :
    setupCPURoundRobinData queueBits fuel h garbage first num table =
      (sharedQueues queueBits fuel h num garbage >>= fun nq =>
        assignCPUs queueBits h nq table) := by
  rw [setup_of_pos hs.pos, nodeRanges, if_neg (Nat.not_le_of_lt hfew), Nat.mod_eq_of_lt hfew]

theorem HardwareInfo.Sound.le_max (hs : h.Sound) : h.numAvailableNUMANodes ≤ h.getMaxNUMANodes := by
  rw [hs.count]
  exact List.countP_le_length

/-- The available nodes that neither loop reaches. -/
def Skipped (h : HardwareInfo) (num n : Nat) : Prop := h.isNode n ∧ 0 < n ∧ n < num - 1

theorem sharedRanges_skipped {n : Nat} (hn : Skipped h num n) :
    sharedRanges queueBits h num garbage n = garbage n := by
  obtain ⟨-, hpos, hlt⟩ := hn
  unfold sharedRanges
  rw [if_neg (fun hc => by omega), if_neg (fun hc => by omega)]

theorem sharedRanges_reached {n : Nat} (hnode : h.isNode n) (hn : ¬ Skipped h num n) :
    sharedRanges queueBits h num garbage n =
      ⟨(if num - 1 ≤ n then num - 1 else num - 2) % 2 ^ queueBits, 1⟩ := by
  unfold sharedRanges
  by_cases hle : num - 1 ≤ n
  · rw [if_pos ⟨hle, hnode⟩, if_pos hle]
  · have hzero : n = 0 := by
      by_contra hne
      exact hn ⟨hnode, by omega, by omega⟩
    rw [if_neg (fun hc => hle hc.1), if_neg hle, if_pos ⟨hzero, by omega⟩]

/-- **Too few queues**: where the set-up ends, the array held `sharedRanges`. -/
theorem setup_shared_result {table' : List Nat} (hs : h.Sound)
    (hlen : table.length = h.getMaxCPUs) (hpos : 0 < num) (hnum : num < 2 ^ numberBits)
    (hfew : num < h.numAvailableNUMANodes)
    (hrun : setupCPURoundRobinData queueBits fuel h garbage first num table = .ok table') :
    Assigned queueBits h (sharedRanges queueBits h num garbage) h.getMaxNUMANodes table' := by
  have hmax := hs.le_max
  rw [setup_of_lt hs hfew] at hrun
  obtain ⟨nq, hshared, hassign⟩ := bind_eq_ok hrun
  by_cases h0 : 2 ≤ num → h.isNode 0
  · obtain hout | hok := sharedQueues_safe hpos hnum (by omega) h0 fuel
    · rw [hout] at hshared
      cases hshared
    · rw [hok] at hshared
      cases hshared
      exact (assignCPUs_ok hlen hassign).2
  · push Not at h0
    rw [sharedQueues_diverges hnum h0.1 (by omega) h0.2] at hshared
    cases hshared

/-- It ends if node 0 is available and no range is empty. -/
theorem setup_shared_total (hs : h.Sound) (hlen : table.length = h.getMaxCPUs) (hpos : 0 < num)
    (hnum : num < 2 ^ numberBits) (hfew : num < h.numAvailableNUMANodes)
    (h0 : 2 ≤ num → h.isNode 0) (hfuel : num - 1 ≤ fuel)
    (hall : ∀ n, Skipped h num n → 0 < (garbage n).num) :
    ∃ table', setupCPURoundRobinData queueBits fuel h garbage first num table = .ok table' := by
  have hmax := hs.le_max
  have hranges : ∀ n, h.isNode n → 0 < (sharedRanges queueBits h num garbage n).num := by
    intro n hn
    by_cases hsk : Skipped h num n
    · rw [sharedRanges_skipped hsk]
      exact hall n hsk
    · rw [sharedRanges_reached hn hsk]
      exact Nat.one_pos
  obtain ⟨t, ht, -⟩ := assignCPUs_spec queueBits hlen fun n _ hn _ => hranges n hn
  refine ⟨t, ?_⟩
  rw [setup_of_lt hs hfew, sharedQueues_spec hpos hnum (by omega) h0 hfuel, ok_bind, ht]

/-- It never ends if node 0 is not available. -/
theorem setup_diverges (hs : h.Sound) (hnum : num < 2 ^ numberBits) (htwo : 2 ≤ num)
    (hfew : num < h.numAvailableNUMANodes) (h0 : ¬ h.isNode 0) :
    setupCPURoundRobinData queueBits fuel h garbage first num table = .error .outOfFuel := by
  have hmax := hs.le_max
  rw [setup_of_lt hs hfew, sharedQueues_diverges hnum htwo (by omega) h0, error_bind]

/-- It divides by zero if a node that was skipped finds an empty range. -/
theorem setup_shared_fault {n : Nat} (hs : h.Sound) (hlen : table.length = h.getMaxCPUs)
    (hpos : 0 < num) (hnum : num < 2 ^ numberBits) (hfew : num < h.numAvailableNUMANodes)
    (h0 : 2 ≤ num → h.isNode 0) (hfuel : num - 1 ≤ fuel) (hn : Skipped h num n)
    (hzero : (garbage n).num = 0) :
    setupCPURoundRobinData queueBits fuel h garbage first num table = .error .divideByZero := by
  have hmax := hs.le_max
  rw [setup_of_lt hs hfew, sharedQueues_spec hpos hnum (by omega) h0 hfuel, ok_bind]
  obtain ⟨c, hc⟩ := hs.exists_cpu n hn.1
  exact assignCPUs_fault hlen hn.1 hc (by rw [sharedRanges_skipped hn, hzero])

/-- Without skipped nodes no divisor is zero. -/
theorem setup_shared_safe (hs : h.Sound) (hlen : table.length = h.getMaxCPUs) (hpos : 0 < num)
    (hnum : num < 2 ^ numberBits) (hfew : num < h.numAvailableNUMANodes)
    (hall : 2 ≤ num → h.isNode 0 → ∀ n, ¬ Skipped h num n) :
    setupCPURoundRobinData queueBits fuel h garbage first num table ≠ .error .divideByZero := by
  have hmax := hs.le_max
  by_cases h0 : 2 ≤ num → h.isNode 0
  · have hnone : ∀ n, ¬ Skipped h num n := by
      intro n hn
      have htwo : 2 ≤ num := by
        have := hn.2
        omega
      exact hall htwo (h0 htwo) n hn
    have hranges : ∀ n, h.isNode n → 0 < (sharedRanges queueBits h num garbage n).num := by
      intro n hn
      rw [sharedRanges_reached hn (hnone n)]
      exact Nat.one_pos
    obtain ⟨t, ht, -⟩ := assignCPUs_spec queueBits hlen fun n _ hn _ => hranges n hn
    rw [setup_of_lt hs hfew]
    obtain hout | hok := sharedQueues_safe hpos hnum
      (by omega) h0 fuel
    · rw [hout, error_bind]
      exact fun hc => by cases hc
    · rw [hok, ok_bind, ht]
      exact fun hc => by cases hc
  · push Not at h0
    rw [setup_diverges hs hnum h0.1 hfew h0.2]
    exact fun hc => by cases hc

end Setup

/-! ## Separation of the nodes -/

/-- **NUMA separation.** With at least as many queues as available nodes, the set-up ends,
every available CPU gets a queue of the group, and available CPUs of different nodes get
different queues, whatever the array on the stack held. -/
theorem numa_separation (topo : Topology) (garbage : Nat → QueueRange) (fuel first num : Nat)
    (henough : (HardwareInfo.init topo .empty).numAvailableNUMANodes ≤ num)
    (hfits : first + num - 1 < 2 ^ queueBits) :
    ∃ table, setupCPURoundRobinData queueBits fuel (HardwareInfo.init topo .empty) garbage first num
        (List.replicate (HardwareInfo.init topo .empty).getMaxCPUs 0) = .ok table ∧
      (∀ c, topo.available c → ∃ q, table[c]? = some q ∧ first ≤ q ∧ q < first + num) ∧
      (∀ c d, topo.available c → topo.available d → topo.nodeOfCPU c ≠ topo.nodeOfCPU d →
        table[c]? ≠ table[d]?) := by
  rw [HardwareInfo.init_empty] at henough ⊢
  have hs := topo.sound_describe
  have hpos := hs.pos
  obtain ⟨table, hrun, hentries⟩ := setup_distinct fuel garbage hs List.length_replicate henough
    (show first + num ≤ 2 ^ queueBits by omega)
  have hcpu : ∀ c, topo.available c → topo.describe.isNode (topo.nodeOfCPU c) ∧
      topo.describe.isInNode (topo.nodeOfCPU c) c := fun c hc =>
    ⟨Topology.isNode_describe.mpr (Topology.nodeAvailable_nodeOfCPU hc),
      Topology.isInNode_describe.mpr ⟨hc, rfl⟩⟩
  -- the last queue of a node's range is below the first one of any later node's
  have hnext : ∀ m n, topo.describe.isNode m → m < n →
      usedQueues topo.describe (num / topo.describe.numAvailableNUMANodes)
          (num % topo.describe.numAvailableNUMANodes) m +
        nodeQueues (num / topo.describe.numAvailableNUMANodes)
          (num % topo.describe.numAvailableNUMANodes) m ≤
      usedQueues topo.describe (num / topo.describe.numAvailableNUMANodes)
          (num % topo.describe.numAvailableNUMANodes) n := by
    intro m n hm hlt
    have hmono := usedQueues_mono (h := topo.describe)
      (q := num / topo.describe.numAvailableNUMANodes)
      (r := num % topo.describe.numAvailableNUMANodes) (show m + 1 ≤ n from hlt)
    rwa [usedQueues, if_pos hm] at hmono
  refine ⟨table, hrun, fun c hc => ?_, fun c d hc hd hne heq => ?_⟩
  · obtain ⟨hnode, hin⟩ := hcpu c hc
    obtain ⟨k, hk, hlt, hend⟩ := hentries _ c hnode hin
    exact ⟨_, hk, by omega, by omega⟩
  · obtain ⟨hnodec, hinc⟩ := hcpu c hc
    obtain ⟨hnoded, hind⟩ := hcpu d hd
    obtain ⟨k, hk, hltk, -⟩ := hentries _ c hnodec hinc
    obtain ⟨l, hl, hltl, -⟩ := hentries _ d hnoded hind
    rw [hk, hl, Option.some.injEq] at heq
    rcases Nat.lt_or_gt_of_ne hne with hlt | hlt
    · have := hnext _ _ hnodec hlt
      omega
    · have := hnext _ _ hnoded hlt
      omega

/-- Four possible CPUs; CPUs 0 and 2 are in node 1, CPU 3 is in node 3, and CPU 1 is not
available. -/
def sparseTopology : Topology where
  maxNode := 3
  possibleCPUs := 4
  isAvailable c := c != 1
  nodeOfCPU c := if c = 3 then 3 else 1
  node_le := by decide
  exists_cpu := ⟨0, by decide⟩

theorem numa_separation_sparse :
    (HardwareInfo.init sparseTopology .empty).numAvailableNUMANodes ≤ 3 ∧ 2 + 3 - 1 < 2 ^ 8 ∧
    ∃ table, setupCPURoundRobinData 8 0 (HardwareInfo.init sparseTopology .empty)
        (fun _ => ⟨0, 0⟩) 2 3
        (List.replicate (HardwareInfo.init sparseTopology .empty).getMaxCPUs 0) = .ok table ∧
      (∀ c, sparseTopology.available c → ∃ q, table[c]? = some q ∧ 2 ≤ q ∧ q < 2 + 3) ∧
      (∀ c d, sparseTopology.available c → sparseTopology.available d →
        sparseTopology.nodeOfCPU c ≠ sparseTopology.nodeOfCPU d → table[c]? ≠ table[d]?) :=
  ⟨by decide, by decide,
    numa_separation sparseTopology (fun _ => ⟨0, 0⟩) 0 2 3 (by decide) (by decide)⟩

end Tagaspi
