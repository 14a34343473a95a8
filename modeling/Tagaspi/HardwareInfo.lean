import Mathlib.Algebra.Order.Ring.Nat
import Mathlib.Data.Nat.Find
import Mathlib.Data.List.Count
import Mathlib.Data.List.Range
import Mathlib.Order.Bounds.Basic

/-!
# The hardware topology (`HardwareInfo.hpp`)

`HardwareInfo::initialize` asks libnuma for the CPUs of the process and the NUMA
node of each and records them in two vectors and a counter, all static.

- `Topology`: what libnuma reports.
- `HardwareInfo.init`: the scan over the possible CPUs, on top of whatever the
  static members held before.
- `Topology.describe`: the same information said directly. A first initialisation
  produces it (`init_empty`); a later one, on top of the old vectors, counts no
  node as available (`init_again`), because the vectors are never cleared.
- `Describes`: what the getters may be relied on for, which holds after a first
  initialisation (`init_describes`).
-/

namespace Tagaspi

/-- The answers of libnuma. -/
structure Topology where
  /-- `numa_max_node()`. -/
  maxNode : Nat
  /-- `numa_num_possible_cpus()`. -/
  possibleCPUs : Nat
  /-- `numa_bitmask_isbitset(numa_all_cpus_ptr, c)`. -/
  isAvailable : Nat → Bool
  /-- `numa_node_of_cpu(c)`. -/
  nodeOfCPU : Nat → Nat
  node_le : ∀ c, c < possibleCPUs → isAvailable c = true → nodeOfCPU c ≤ maxNode
  /-- The process runs somewhere. -/
  exists_cpu : ∃ c, c < possibleCPUs ∧ isAvailable c = true

/-- The static members of `HardwareInfo`. -/
structure HardwareInfo where
  cpuToNUMANode : List Int
  numaNodeAvailability : List Bool
  numAvailableNUMANodes : Nat
deriving DecidableEq, Repr

namespace HardwareInfo

/-- Before the first initialisation. -/
def empty : HardwareInfo := ⟨[], [], 0⟩

def getMaxCPUs (h : HardwareInfo) : Nat := h.cpuToNUMANode.length

def getMaxNUMANodes (h : HardwareInfo) : Nat := h.numaNodeAvailability.length

/-- `std::vector::resize`. -/
def resize {α : Type} (l : List α) (n : Nat) (a : α) : List α :=
  l.take n ++ List.replicate (n - l.length) a

/-- The state of the loop over the CPUs. -/
structure Scan where
  info : HardwareInfo
  maxAvailableCPU : Nat
  maxAvailableNUMA : Nat

/-- The vectors are resized, the counter is reset. -/
def Scan.start (topo : Topology) (h : HardwareInfo) : Scan where
  info :=
    { cpuToNUMANode := resize h.cpuToNUMANode topo.possibleCPUs (-1)
      numaNodeAvailability := resize h.numaNodeAvailability (topo.maxNode + 1) false
      numAvailableNUMANodes := 0 }
  maxAvailableCPU := 0
  maxAvailableNUMA := 0

/-- The body of the loop. -/
def Scan.step (topo : Topology) (s : Scan) (c : Nat) : Scan :=
  if topo.isAvailable c then
    let numa := topo.nodeOfCPU c
    let known := s.info.numaNodeAvailability.getD numa false
    { info :=
        { cpuToNUMANode := s.info.cpuToNUMANode.set c numa
          numaNodeAvailability :=
            if known then s.info.numaNodeAvailability
            else s.info.numaNodeAvailability.set numa true
          numAvailableNUMANodes :=
            if known then s.info.numAvailableNUMANodes else s.info.numAvailableNUMANodes + 1 }
      maxAvailableCPU := c
      maxAvailableNUMA := if s.maxAvailableNUMA < numa then numa else s.maxAvailableNUMA }
  else s

/-- The loop up to CPU `i`. -/
def scan (topo : Topology) (h : HardwareInfo) (i : Nat) : Scan :=
  (List.range i).foldl (Scan.step topo) (.start topo h)

/-- `HardwareInfo::initialize`. -/
def init (topo : Topology) (h : HardwareInfo) : HardwareInfo :=
  let s := scan topo h topo.possibleCPUs
  { cpuToNUMANode := resize s.info.cpuToNUMANode (s.maxAvailableCPU + 1) 0
    numaNodeAvailability := resize s.info.numaNodeAvailability (s.maxAvailableNUMA + 1) false
    numAvailableNUMANodes := s.info.numAvailableNUMANodes }

/-- `HardwareInfo::finalize` has an empty body. -/
def finalize (h : HardwareInfo) : HardwareInfo := h

end HardwareInfo

/-! ## What the scan finds -/

namespace Topology

variable (topo : Topology)

/-- CPU `c` is available. -/
def available (c : Nat) : Prop := c < topo.possibleCPUs ∧ topo.isAvailable c = true

instance : DecidablePred topo.available := fun _ => inferInstanceAs (Decidable (_ ∧ _))

/-- Some available CPU belongs to node `n`. -/
def nodeAvailable (n : Nat) : Prop := ∃ c, c < topo.possibleCPUs ∧
  topo.isAvailable c = true ∧ topo.nodeOfCPU c = n

instance : DecidablePred topo.nodeAvailable := fun _ => inferInstanceAs (Decidable (∃ _, _ ∧ _))

/-- The entry of the CPU map. -/
def cpuMap (c : Nat) : Int := if topo.available c then topo.nodeOfCPU c else -1

/-- The largest available CPU. -/
def lastCPU : Nat := Nat.findGreatest topo.available topo.possibleCPUs

/-- The largest available node. -/
def lastNode : Nat := Nat.findGreatest topo.nodeAvailable topo.maxNode

/-- The availability of the nodes below `k`. -/
def nodeBits (k : Nat) : List Bool := (List.range k).map fun n => decide (topo.nodeAvailable n)

/-- The topology as `HardwareInfo` describes it. -/
def describe : HardwareInfo where
  cpuToNUMANode := (List.range (topo.lastCPU + 1)).map topo.cpuMap
  numaNodeAvailability := topo.nodeBits (topo.lastNode + 1)
  numAvailableNUMANodes := (topo.nodeBits (topo.lastNode + 1)).countP id

variable {topo}

theorem nodeAvailable_nodeOfCPU {c : Nat} (h : topo.available c) :
    topo.nodeAvailable (topo.nodeOfCPU c) :=
  ⟨c, h.1, h.2, rfl⟩

theorem nodeAvailable_le {n : Nat} (h : topo.nodeAvailable n) : n ≤ topo.maxNode := by
  obtain ⟨c, hc, ha, rfl⟩ := h
  exact topo.node_le c hc ha

theorem cpuMap_of_available {c : Nat} (h : topo.available c) :
    topo.cpuMap c = topo.nodeOfCPU c :=
  if_pos h

theorem cpuMap_of_not {c : Nat} (h : ¬ topo.available c) : topo.cpuMap c = -1 := if_neg h

theorem eq_lastCPU {c : Nat} (hc : topo.available c) (hmax : ∀ d, topo.available d → d ≤ c) :
    c = topo.lastCPU := by
  refine Nat.le_antisymm (Nat.le_findGreatest (Nat.le_of_lt hc.1) hc) (hmax _ ?_)
  exact Nat.findGreatest_spec (P := topo.available) (Nat.le_of_lt hc.1) hc

theorem eq_lastNode {n : Nat} (hn : topo.nodeAvailable n)
    (hmax : ∀ m, topo.nodeAvailable m → m ≤ n) : n = topo.lastNode := by
  refine Nat.le_antisymm (Nat.le_findGreatest (nodeAvailable_le hn) hn) (hmax _ ?_)
  exact Nat.findGreatest_spec (P := topo.nodeAvailable) (nodeAvailable_le hn) hn

theorem available_lastCPU : topo.available topo.lastCPU := by
  obtain ⟨c, hc⟩ := topo.exists_cpu
  exact Nat.findGreatest_spec (P := topo.available) (Nat.le_of_lt hc.1) hc

theorem le_lastCPU {c : Nat} (h : topo.available c) : c ≤ topo.lastCPU :=
  Nat.le_findGreatest (Nat.le_of_lt h.1) h

theorem le_lastNode {n : Nat} (h : topo.nodeAvailable n) : n ≤ topo.lastNode :=
  Nat.le_findGreatest (nodeAvailable_le h) h

theorem lastNode_le : topo.lastNode ≤ topo.maxNode := Nat.findGreatest_le _

theorem nodeAvailable_lastNode : topo.nodeAvailable topo.lastNode := by
  obtain ⟨c, hc, ha⟩ := topo.exists_cpu
  have hn : topo.nodeAvailable (topo.nodeOfCPU c) := ⟨c, hc, ha, rfl⟩
  exact Nat.findGreatest_spec (P := topo.nodeAvailable) (nodeAvailable_le hn) hn

theorem getElem?_nodeBits {k n : Nat} (hn : n < k) :
    (topo.nodeBits k)[n]? = some (decide (topo.nodeAvailable n)) := by
  unfold nodeBits
  rw [List.getElem?_map, List.getElem?_range hn]
  rfl

theorem length_nodeBits (k : Nat) : (topo.nodeBits k).length = k := by
  unfold nodeBits
  rw [List.length_map, List.length_range]

theorem countP_nodeBits {k : Nat} (hk : topo.lastNode < k) :
    (topo.nodeBits k).countP id = (topo.nodeBits (topo.lastNode + 1)).countP id := by
  obtain ⟨d, rfl⟩ := Nat.exists_eq_add_of_lt hk
  unfold nodeBits
  rw [show topo.lastNode + d + 1 = topo.lastNode + 1 + d by omega, List.range_add, List.map_append,
    List.countP_append, Nat.add_eq_left, List.countP_eq_zero]
  -- there is no available node past the last one
  intro b hb
  rw [List.map_map, List.mem_map] at hb
  obtain ⟨n, -, rfl⟩ := hb
  intro hn
  have hle : topo.lastNode + 1 + n ≤ topo.lastNode := le_lastNode (of_decide_eq_true hn)
  omega

end Topology

/-! ## The scan -/

namespace HardwareInfo

variable {topo : Topology} {h : HardwareInfo}

/-- Static members that say nothing wrong about the topology. -/
structure Consistent (topo : Topology) (h : HardwareInfo) : Prop where
  cpus : ∀ c v, h.cpuToNUMANode[c]? = some v → ¬ topo.available c → v = -1
  nodes : ∀ n, h.numaNodeAvailability[n]? = some true → topo.nodeAvailable n

theorem length_resize {α : Type} (l : List α) (n : Nat) (a : α) : (resize l n a).length = n := by
  unfold resize
  rw [List.length_append, List.length_take, List.length_replicate]
  omega

theorem getElem?_resize {α : Type} {l : List α} {n i : Nat} {a : α} (hi : i < n) :
    (resize l n a)[i]? = some (l[i]?.getD a) := by
  unfold resize
  by_cases hl : i < l.length
  · rw [List.getElem?_append_left (by rw [List.length_take]; omega), List.getElem?_take_of_lt hi,
      List.getElem?_eq_getElem hl]
    rfl
  · rw [List.getElem?_append_right (by rw [List.length_take]; omega), List.getElem?_replicate,
      if_pos (by rw [List.length_take]; omega), List.getElem?_eq_none (by omega)]
    rfl

/-! Marking a node in the availability vector, known or not. -/

theorem length_mark (l : List Bool) (m : Nat) :
    (if l.getD m false then l else l.set m true).length = l.length := by
  by_cases hk : l.getD m false = true
  · rw [if_pos hk]
  · rw [if_neg hk, List.length_set]

theorem getElem?_mark {l : List Bool} {m : Nat} (hm : m < l.length) (n : Nat) :
    (if l.getD m false then l else l.set m true)[n]? = if n = m then some true else l[n]? := by
  by_cases hk : l.getD m false = true
  · rw [if_pos hk]
    by_cases hn : n = m
    · subst hn
      rw [List.getD_eq_getElem?_getD, List.getElem?_eq_getElem hm, Option.getD_some] at hk
      rw [if_pos rfl, List.getElem?_eq_getElem hm, hk]
    · rw [if_neg hn]
  · rw [if_neg hk, List.getElem?_set]
    by_cases hn : n = m
    · subst hn
      rw [if_pos rfl, if_pos rfl, if_pos hm]
    · rw [if_neg (Ne.symm hn), if_neg hn]

/-- The counter goes up exactly when a bit is set. -/
theorem countP_mark {l : List Bool} {m a b : Nat} (hm : m < l.length)
    (hcount : a + b = l.countP id) :
    (if l.getD m false then a else a + 1) + b =
      (if l.getD m false then l else l.set m true).countP id := by
  by_cases hk : l.getD m false = true
  · rw [if_pos hk, if_pos hk]
    exact hcount
  · have hold : l[m] = false := by
      rw [List.getD_eq_getElem?_getD, List.getElem?_eq_getElem hm, Option.getD_some] at hk
      simpa using hk
    rw [if_neg hk, if_neg hk, List.countP_set hm]
    simp only [hold, id]
    simp
    omega

/-- What holds after the loop has seen the CPUs below `i`. -/
structure Scanned (topo : Topology) (h : HardwareInfo) (i : Nat) (s : Scan) : Prop where
  cpuLength : s.info.cpuToNUMANode.length = topo.possibleCPUs
  nodeLength : s.info.numaNodeAvailability.length = topo.maxNode + 1
  cpus : ∀ c, c < topo.possibleCPUs → (c < i ∨ ¬ topo.available c) →
    s.info.cpuToNUMANode[c]? = some (topo.cpuMap c)
  nodes : ∀ n, s.info.numaNodeAvailability[n]? = some true → topo.nodeAvailable n
  seen : ∀ c, c < i → topo.available c →
    s.info.numaNodeAvailability[topo.nodeOfCPU c]? = some true
  count : s.info.numAvailableNUMANodes +
    (resize h.numaNodeAvailability (topo.maxNode + 1) false).countP id =
      s.info.numaNodeAvailability.countP id
  lastCPU : ∀ c, c < i → topo.available c →
    c ≤ s.maxAvailableCPU ∧ topo.available s.maxAvailableCPU
  lastNode : ∀ c, c < i → topo.available c → topo.nodeOfCPU c ≤ s.maxAvailableNUMA
  /-- The maximum starts at 0, a node that need not be available. -/
  maxNode : s.maxAvailableNUMA = 0 ∨ topo.nodeAvailable s.maxAvailableNUMA

theorem scanned_start (hc : Consistent topo h) : Scanned topo h 0 (.start topo h) where
  cpuLength := length_resize ..
  nodeLength := length_resize ..
  cpus c hlt hor := by
    have hna : ¬ topo.available c := hor.resolve_left (Nat.not_lt_zero c)
    show (resize h.cpuToNUMANode topo.possibleCPUs (-1))[c]? = _
    rw [getElem?_resize hlt, Topology.cpuMap_of_not hna]
    cases hv : h.cpuToNUMANode[c]? with
    | none => rfl
    | some v => exact congrArg some (hc.cpus c v hv hna)
  nodes n hn := by
    have hn' : (resize h.numaNodeAvailability (topo.maxNode + 1) false)[n]? = some true := hn
    have hlt : n < topo.maxNode + 1 := by
      have := (List.getElem?_eq_some_iff.mp hn').1
      rwa [length_resize] at this
    rw [getElem?_resize hlt, Option.some.injEq] at hn'
    cases hv : h.numaNodeAvailability[n]? with
    | none => rw [hv] at hn'; cases hn'
    | some v =>
      rw [hv] at hn'
      exact hc.nodes n (hv.trans (congrArg some hn'))
  seen c hc' := absurd hc' (Nat.not_lt_zero c)
  count := Nat.zero_add _
  lastCPU c hc' := absurd hc' (Nat.not_lt_zero c)
  lastNode c hc' := absurd hc' (Nat.not_lt_zero c)
  maxNode := .inl rfl

theorem scanned_step {i : Nat} {s : Scan} (hi : i < topo.possibleCPUs) (hs : Scanned topo h i s) :
    Scanned topo h (i + 1) (s.step topo i) := by
  unfold Scan.step
  by_cases ha : topo.isAvailable i = true
  · have hav : topo.available i := ⟨hi, ha⟩
    have hnode : topo.nodeOfCPU i < s.info.numaNodeAvailability.length := by
      have := topo.node_le i hi ha
      rw [hs.nodeLength]
      omega
    rw [if_pos ha]
    refine ⟨?_, ?_, ?_, ?_, ?_, ?_, ?_, ?_, ?_⟩
    · show (s.info.cpuToNUMANode.set i _).length = _
      rw [List.length_set, hs.cpuLength]
    · exact (length_mark ..).trans hs.nodeLength
    · intro c hc hor
      show (s.info.cpuToNUMANode.set i _)[c]? = _
      rw [List.getElem?_set]
      by_cases hci : i = c
      · subst hci
        rw [if_pos rfl, if_pos (by rw [hs.cpuLength]; exact hi), Topology.cpuMap_of_available hav]
      · rw [if_neg hci]
        exact hs.cpus c hc (hor.imp_left fun hlt => by omega)
    · intro n hn
      rw [getElem?_mark hnode] at hn
      by_cases hn' : n = topo.nodeOfCPU i
      · rw [hn']
        exact Topology.nodeAvailable_nodeOfCPU hav
      · rw [if_neg hn'] at hn
        exact hs.nodes n hn
    · intro c hc hca
      rw [getElem?_mark hnode]
      by_cases hn : topo.nodeOfCPU c = topo.nodeOfCPU i
      · rw [if_pos hn]
      · rw [if_neg hn]
        have hci : c ≠ i := by
          rintro rfl
          exact hn rfl
        exact hs.seen c (by omega) hca
    · exact countP_mark hnode hs.count
    · intro c hc hca
      exact ⟨by show c ≤ i; omega, hav⟩
    · intro c hc hca
      show topo.nodeOfCPU c ≤ (if _ then _ else _ : Nat)
      have hold : c ≠ i → topo.nodeOfCPU c ≤ s.maxAvailableNUMA := fun hci =>
        hs.lastNode c (by omega) hca
      by_cases hci : c = i
      · rw [hci]
        by_cases hmax : s.maxAvailableNUMA < topo.nodeOfCPU i
        · rw [if_pos hmax]
        · rw [if_neg hmax]
          omega
      · by_cases hmax : s.maxAvailableNUMA < topo.nodeOfCPU i
        · rw [if_pos hmax]
          exact (hold hci).trans hmax.le
        · rw [if_neg hmax]
          exact hold hci
    · show (if _ then _ else _ : Nat) = 0 ∨ topo.nodeAvailable (if _ then _ else _)
      by_cases hmax : s.maxAvailableNUMA < topo.nodeOfCPU i
      · rw [if_pos hmax]
        exact .inr (Topology.nodeAvailable_nodeOfCPU hav)
      · rw [if_neg hmax]
        exact hs.maxNode
  · rw [if_neg ha]
    -- CPU `i` is not available, so nothing more was to be seen
    have hne : ∀ c, c < i + 1 → topo.available c → c < i := by
      intro c hc hca
      have hci : c ≠ i := by
        rintro rfl
        exact ha hca.2
      omega
    refine ⟨hs.cpuLength, hs.nodeLength, ?_, hs.nodes, fun c hc hca => hs.seen c (hne c hc hca) hca,
      hs.count, fun c hc hca => hs.lastCPU c (hne c hc hca) hca,
      fun c hc hca => hs.lastNode c (hne c hc hca) hca, hs.maxNode⟩
    intro c hc hor
    by_cases hca : topo.available c
    · exact hs.cpus c hc (.inl (hne c (hor.resolve_right (not_not_intro hca)) hca))
    · exact hs.cpus c hc (.inr hca)

/-- The loop keeps the invariant. -/
theorem scanned_scan (hc : Consistent topo h) {i : Nat} (hi : i ≤ topo.possibleCPUs) :
    Scanned topo h i (scan topo h i) := by
  induction i with
  | zero => exact scanned_start hc
  | succ i ih =>
    have hstep := scanned_step (Nat.lt_of_succ_le hi) (ih (Nat.le_of_succ_le hi))
    unfold scan at hstep ⊢
    rwa [List.range_succ, List.foldl_append]

/-- The last node seen is the last available one. -/
theorem maxAvailableNUMA_eq {s : Scan} (hs : Scanned topo h topo.possibleCPUs s) :
    s.maxAvailableNUMA = topo.lastNode := by
  have hle : ∀ m, topo.nodeAvailable m → m ≤ s.maxAvailableNUMA := by
    rintro m ⟨c, hc, ha, rfl⟩
    exact hs.lastNode c hc ⟨hc, ha⟩
  refine Topology.eq_lastNode ?_ hle
  rcases hs.maxNode with h0 | hav
  · -- every available node is at most 0, and there is one
    obtain ⟨c, hc, ha⟩ := topo.exists_cpu
    have hn : topo.nodeAvailable (topo.nodeOfCPU c) := ⟨c, hc, ha, rfl⟩
    have := hle _ hn
    rw [h0] at this ⊢
    rwa [Nat.le_zero.mp this] at hn
  · exact hav

theorem maxAvailableCPU_eq {s : Scan} (hs : Scanned topo h topo.possibleCPUs s) :
    s.maxAvailableCPU = topo.lastCPU := by
  obtain ⟨c, hc⟩ := topo.exists_cpu
  exact Topology.eq_lastCPU (hs.lastCPU c hc.1 hc).2 fun d hd => (hs.lastCPU d hd.1 hd).1

/-- After the loop the availability vector says which nodes are available. -/
theorem scanned_nodes {s : Scan} (hs : Scanned topo h topo.possibleCPUs s) :
    s.info.numaNodeAvailability = topo.nodeBits (topo.maxNode + 1) := by
  refine List.ext_getElem? fun n => ?_
  by_cases hn : n < topo.maxNode + 1
  · rw [Topology.getElem?_nodeBits hn]
    have hlt : n < s.info.numaNodeAvailability.length := by rwa [hs.nodeLength]
    rw [List.getElem?_eq_getElem hlt, Option.some.injEq, Bool.eq_iff_iff, decide_eq_true_iff]
    constructor
    · intro hb
      exact hs.nodes n (by rw [List.getElem?_eq_getElem hlt, hb])
    · rintro ⟨c, hc, ha, rfl⟩
      have := hs.seen c hc ⟨hc, ha⟩
      rwa [List.getElem?_eq_getElem hlt, Option.some.injEq] at this
  · rw [List.getElem?_eq_none (by rw [hs.nodeLength]; omega),
      List.getElem?_eq_none (by rw [Topology.length_nodeBits]; omega)]

theorem resize_nodeBits {k n : Nat} (hk : topo.lastNode < k) :
    resize (topo.nodeBits k) n false = topo.nodeBits n := by
  refine List.ext_getElem? fun i => ?_
  by_cases hi : i < n
  · rw [getElem?_resize hi, Topology.getElem?_nodeBits hi]
    by_cases hik : i < k
    · rw [Topology.getElem?_nodeBits hik]
      rfl
    · rw [List.getElem?_eq_none (by rw [Topology.length_nodeBits]; omega)]
      have hna : ¬ topo.nodeAvailable i := fun ha => by
        have := Topology.le_lastNode ha
        omega
      rw [decide_eq_false hna]
      rfl
  · rw [List.getElem?_eq_none (by rw [length_resize]; omega),
      List.getElem?_eq_none (by rw [Topology.length_nodeBits]; omega)]

/-- **What `initialize` leaves** on top of consistent vectors: the right vectors, and a
counter of the nodes that were not already marked. -/
theorem init_consistent (hc : Consistent topo h) :
    init topo h = { topo.describe with
      numAvailableNUMANodes := topo.describe.numAvailableNUMANodes -
        (resize h.numaNodeAvailability (topo.maxNode + 1) false).countP id } := by
  have hs := scanned_scan hc (Nat.le_refl topo.possibleCPUs)
  have hnodes := scanned_nodes hs
  have hmax : topo.lastNode < topo.maxNode + 1 := Nat.lt_succ_of_le Topology.lastNode_le
  unfold init
  rw [HardwareInfo.mk.injEq]
  refine ⟨?_, ?_, ?_⟩
  · rw [maxAvailableCPU_eq hs]
    refine List.ext_getElem? fun i => ?_
    by_cases hi : i < topo.lastCPU + 1
    · have hlast : topo.available topo.lastCPU := Topology.available_lastCPU
      have hi' : i < topo.possibleCPUs := Nat.lt_of_lt_of_le hi hlast.1
      rw [getElem?_resize hi, hs.cpus i hi' (.inl hi')]
      show _ = ((List.range (topo.lastCPU + 1)).map topo.cpuMap)[i]?
      rw [List.getElem?_map, List.getElem?_range hi]
      rfl
    · rw [List.getElem?_eq_none (by rw [length_resize]; omega), List.getElem?_eq_none]
      show ((List.range (topo.lastCPU + 1)).map topo.cpuMap).length ≤ i
      rw [List.length_map, List.length_range]
      omega
  · rw [maxAvailableNUMA_eq hs, hnodes, resize_nodeBits hmax]
    rfl
  · have hcount := hs.count
    rw [hnodes, Topology.countP_nodeBits hmax] at hcount
    exact Nat.eq_sub_of_add_eq hcount

/-- **A first initialisation** describes the topology. -/
theorem init_empty (topo : Topology) : init topo empty = topo.describe := by
  have hc : Consistent topo empty :=
    ⟨fun c v hv => absurd hv (by simp [empty]), fun n hn => absurd hn (by simp [empty])⟩
  have hzero : (resize empty.numaNodeAvailability (topo.maxNode + 1) false).countP id = 0 := by
    rw [List.countP_eq_zero]
    simp [empty, resize]
  rw [init_consistent hc, hzero, Nat.sub_zero]

/-- **A later initialisation** finds every node already marked, so it counts none. -/
theorem init_again (topo : Topology) (n : Nat) :
    init topo { topo.describe with numAvailableNUMANodes := n } =
      { topo.describe with numAvailableNUMANodes := 0 } := by
  have hc : Consistent topo { topo.describe with numAvailableNUMANodes := n } := by
    refine ⟨fun c v hv hna => ?_, fun m hm => ?_⟩
    · have hv' : ((List.range (topo.lastCPU + 1)).map topo.cpuMap)[c]? = some v := hv
      rw [List.getElem?_map, Option.map_eq_some_iff] at hv'
      obtain ⟨c', hc', rfl⟩ := hv'
      obtain ⟨hlt, rfl⟩ := List.getElem?_eq_some_iff.mp hc'
      rw [List.getElem_range]
      exact Topology.cpuMap_of_not hna
    · have hm' : (topo.nodeBits (topo.lastNode + 1))[m]? = some true := hm
      have hlt := (List.getElem?_eq_some_iff.mp hm').1
      rw [Topology.length_nodeBits] at hlt
      rw [Topology.getElem?_nodeBits hlt, Option.some.injEq] at hm'
      exact of_decide_eq_true hm'
  have hmax : topo.lastNode < topo.maxNode + 1 := Nat.lt_succ_of_le Topology.lastNode_le
  have hzero : topo.describe.numAvailableNUMANodes -
      (resize (topo.nodeBits (topo.lastNode + 1)) (topo.maxNode + 1) false).countP id = 0 := by
    rw [resize_nodeBits (Nat.lt_succ_self _), Topology.countP_nodeBits hmax]
    exact Nat.sub_self _
  rw [init_consistent hc]
  exact congrArg (fun k => { topo.describe with numAvailableNUMANodes := k }) hzero

/-! ## What the users of the description rely on -/

/-- Node `n` is marked as available. -/
def isNode (h : HardwareInfo) (n : Nat) : Prop := h.numaNodeAvailability[n]? = some true

instance (h : HardwareInfo) : DecidablePred h.isNode := fun _ => inferInstanceAs (Decidable (_ = _))

/-- CPU `c` is in node `n`. -/
def isInNode (h : HardwareInfo) (n c : Nat) : Prop := h.cpuToNUMANode[c]? = some (n : Int)

instance (h : HardwareInfo) (n : Nat) : DecidablePred (h.isInNode n) :=
  fun _ => inferInstanceAs (Decidable (_ = _))

/-- The members of `HardwareInfo` fit together. -/
structure Sound (h : HardwareInfo) : Prop where
  count : h.numAvailableNUMANodes = h.numaNodeAvailability.countP id
  exists_cpu : ∀ n, h.isNode n → ∃ c, h.isInNode n c
  exists_node : ∃ n, h.isNode n

theorem isNode_lt {n : Nat} (hn : h.isNode n) : n < h.getMaxNUMANodes :=
  (List.getElem?_eq_some_iff.mp hn).1

theorem isInNode_lt {n c : Nat} (hc : h.isInNode n c) : c < h.getMaxCPUs :=
  (List.getElem?_eq_some_iff.mp hc).1

theorem Sound.pos (hs : Sound h) : 0 < h.numAvailableNUMANodes := by
  obtain ⟨n, hn⟩ := hs.exists_node
  rw [hs.count, List.countP_pos_iff]
  exact ⟨true, List.mem_of_getElem? hn, rfl⟩

end HardwareInfo

namespace Topology

variable {topo : Topology}

theorem isNode_describe {n : Nat} : topo.describe.isNode n ↔ topo.nodeAvailable n := by
  show (topo.nodeBits (topo.lastNode + 1))[n]? = some true ↔ _
  constructor
  · intro hn
    have hlt := (List.getElem?_eq_some_iff.mp hn).1
    rw [length_nodeBits] at hlt
    rw [getElem?_nodeBits hlt, Option.some.injEq] at hn
    exact of_decide_eq_true hn
  · intro hn
    rw [getElem?_nodeBits (Nat.lt_succ_of_le (le_lastNode hn)), decide_eq_true hn]

theorem isInNode_describe {n c : Nat} :
    topo.describe.isInNode n c ↔ topo.available c ∧ topo.nodeOfCPU c = n := by
  show ((List.range (topo.lastCPU + 1)).map topo.cpuMap)[c]? = some (n : Int) ↔ _
  rw [List.getElem?_map, Option.map_eq_some_iff]
  constructor
  · rintro ⟨c', hc', hmap⟩
    obtain ⟨hlt, rfl⟩ := List.getElem?_eq_some_iff.mp hc'
    rw [List.getElem_range] at hmap
    by_cases ha : topo.available c
    · rw [cpuMap_of_available ha] at hmap
      exact ⟨ha, Int.ofNat_inj.mp hmap⟩
    · rw [cpuMap_of_not ha] at hmap
      omega
  · rintro ⟨ha, rfl⟩
    exact ⟨c, List.getElem?_range (Nat.lt_succ_of_le (le_lastCPU ha)), cpuMap_of_available ha⟩

theorem sound_describe (topo : Topology) : topo.describe.Sound where
  count := rfl
  exists_cpu n hn := by
    obtain ⟨c, hc, ha, rfl⟩ := isNode_describe.mp hn
    exact ⟨c, isInNode_describe.mpr ⟨⟨hc, ha⟩, rfl⟩⟩
  exists_node := ⟨topo.lastNode, isNode_describe.mpr nodeAvailable_lastNode⟩

end Topology

/-! ## The getters -/

namespace HardwareInfo

/-- What the getters say of the topology. -/
structure Describes (topo : Topology) (h : HardwareInfo) : Prop where
  maxCPUs : ∃ c, IsGreatest {c | topo.available c} c ∧ h.getMaxCPUs = c + 1
  maxNUMANodes : ∃ n, IsGreatest {n | topo.nodeAvailable n} n ∧ h.getMaxNUMANodes = n + 1
  cpuToNUMANode : ∀ c, c < h.getMaxCPUs → h.cpuToNUMANode[c]? =
    some (if topo.available c then (topo.nodeOfCPU c : Int) else -1)
  numaNodeAvailability : ∀ n, h.numaNodeAvailability[n]? = some true ↔
    ∃ c, topo.available c ∧ topo.nodeOfCPU c = n
  numAvailable : h.numAvailableNUMANodes = h.numaNodeAvailability.countP id
  numAvailable_pos : 1 ≤ h.numAvailableNUMANodes
  /-- Every entry of the CPU map is an index into the other vector. -/
  indexed : ∀ (c : Nat) (v : Int), h.cpuToNUMANode[c]? = some v → v ≠ -1 →
    ∃ n : Nat, v = n ∧ n < h.getMaxNUMANodes ∧ h.numaNodeAvailability[n]? = some true

theorem describes_describe (topo : Topology) : Describes topo topo.describe := by
  have hmaxCPUs : topo.describe.getMaxCPUs = topo.lastCPU + 1 := by
    show ((List.range (topo.lastCPU + 1)).map topo.cpuMap).length = _
    rw [List.length_map, List.length_range]
  have hcpus : ∀ c, c < topo.describe.getMaxCPUs →
      topo.describe.cpuToNUMANode[c]? = some (topo.cpuMap c) := by
    intro c hc
    rw [hmaxCPUs] at hc
    show ((List.range (topo.lastCPU + 1)).map topo.cpuMap)[c]? = _
    rw [List.getElem?_map, List.getElem?_range hc]
    rfl
  refine ⟨⟨topo.lastCPU, ?_, hmaxCPUs⟩, ⟨topo.lastNode, ?_, Topology.length_nodeBits _⟩, hcpus,
    fun n => ?_, rfl, topo.sound_describe.pos, fun c v hv hne => ?_⟩
  · constructor
    · exact Topology.available_lastCPU
    · exact fun c hc => Topology.le_lastCPU hc
  · constructor
    · exact Topology.nodeAvailable_lastNode
    · exact fun n hn => Topology.le_lastNode hn
  · refine Topology.isNode_describe.trans (exists_congr fun c => ?_)
    exact and_assoc.symm
  · have hc := (List.getElem?_eq_some_iff.mp hv).1
    rw [hcpus c hc, Option.some.injEq] at hv
    by_cases ha : topo.available c
    · rw [Topology.cpuMap_of_available ha] at hv
      have hnode : topo.describe.isNode (topo.nodeOfCPU c) :=
        Topology.isNode_describe.mpr (Topology.nodeAvailable_nodeOfCPU ha)
      exact ⟨_, hv.symm, isNode_lt hnode, hnode⟩
    · rw [Topology.cpuMap_of_not ha] at hv
      exact absurd hv.symm hne

/-- **A first initialisation describes the topology**, whatever the counter held. -/
theorem init_describes (topo : Topology) (n : Nat) : Describes topo (init topo ⟨[], [], n⟩) := by
  have hinit : init topo ⟨[], [], n⟩ = topo.describe := init_empty topo
  rw [hinit]
  exact describes_describe topo

end HardwareInfo

/-- Two CPUs, each in a node of its own. -/
def twoNodes : Topology where
  maxNode := 1
  possibleCPUs := 2
  isAvailable _ := true
  nodeOfCPU c := if c = 0 then 0 else 1
  node_le := by decide
  exists_cpu := ⟨0, by decide⟩

example : HardwareInfo.init twoNodes .empty = ⟨[0, 1], [true, true], 2⟩ := by decide

example : HardwareInfo.init twoNodes ⟨[0, 1], [true, true], 2⟩ = ⟨[0, 1], [true, true], 0⟩ := by
  decide

end Tagaspi
