import Tagaspi.QueueGroups.Table

/-!
# A queue group hands out its own queues, or not

- `OwnQueues`: in every run, what a group hands out are queues of its own. It is a
  matter of the tables that `setupCPURoundRobinData` computes
  (`ownQueues_of_table`, `ownTable_of_ownQueues`).
- `group_hands_out_its_queues` says exactly for which groups it holds: with fewer
  queues than NUMA nodes the table is filled from queue 0 on instead of from the
  first queue of the group, and some nodes are left out.
-/

namespace Tagaspi

open Lts Loops

namespace Groups

/-! ## A group only hands out its own queues -/

section OwnQueues

variable (cfg : Limits) (topo : Topology) (h : HardwareInfo)

/-- In every run, whatever a group created as `a` hands out is one of its queues. -/
def OwnQueues (a : Args) : Prop :=
  ∀ tr s, Reach (machine cfg topo h) tr s →
    Causal (fun before e => ∀ t id q, e = .got t id q → groupOf id before = some a →
      a.first ≤ q ∧ q < a.first + a.num) tr

/-- Every table that the set-up can produce keeps to the group's queues. -/
def OwnTable (first num : Nat) : Prop :=
  ∀ fuel garbage table, setupCPURoundRobinData cfg.queueBits fuel h garbage first num
      (List.replicate h.getMaxCPUs 0) = .ok table →
    ∀ cpu q, topo.available cpu → table[cpu]? = some q → first ≤ q ∧ q < first + num

variable {cfg topo h} {tr es : List Event} {s s' : State} {t : Nat}

/-- What one step hands out. -/
theorem got_step (hcfg : cfg.Representable) (hinv : Inv cfg h tr s) (hs : Step cfg topo h s es s')
    {id q : Nat} {a : Args} (hmem : es = [.got t id q]) (ha : groupOf id tr = some a)
    (htable : a.policy ≠ .default → OwnTable cfg topo h a.first a.num) :
    a.first ≤ q ∧ q < a.first + a.num := by
  -- the object of the call is the current group
  have hgroup : ∀ p g, s.queueGroups id = some p → s.objects p = some g →
      a = ⟨g.firstQueue, g.numQueues, g.policy⟩ ∧ GroupOk cfg h g := fun p g hp hg =>
    ⟨Option.some.inj (ha.symm.trans (hinv.entry id p g hp hg)), hinv.object p g hg⟩
  have hshort : ∀ p offset g, s.call t = .loaded id p offset → s.objects p = some g →
      a.first ≤ (g.firstQueue + offset) % 2 ^ cfg.queueBits ∧
        (g.firstQueue + offset) % 2 ^ cfg.queueBits < a.first + a.num := by
    intro p offset g hc hg
    have ht := hinv.calls t
    rw [hc] at ht
    obtain ⟨hp, hlt⟩ := ht.2 g hg
    obtain ⟨rfl, hok⟩ := hgroup p g hp hg
    have hfits := hok.fits
    have hbits := hcfg.maxQueues_le
    rw [Nat.mod_eq_of_lt (by omega)]
    simp only
    omega
  cases hs with
  | @getOnly u id' p g hc hg hd hone =>
    cases hmem
    have ht := hinv.calls t
    rw [hc] at ht
    obtain ⟨rfl, hok⟩ := hgroup p g (ht.2 g hg) hg
    have := hok.pos
    simp only
    omega
  | @getSwap u id' p offset g hc hg hd =>
    cases hmem
    exact hshort p offset g hc hg
  | @getLost u id' p offset value g hc hg hd hne =>
    cases hmem
    exact hshort p offset g hc hg
  | @getCPU u id' p cpu q' g table hc hg hd hdata hcpu hq =>
    cases hmem
    have ht := hinv.calls t
    rw [hc] at ht
    obtain ⟨rfl, hok⟩ := hgroup p g (ht.2 g hg) hg
    obtain ⟨fuel, garbage, table', hdata', hsetup⟩ := hok.table hd
    rw [hdata] at hdata'
    cases hdata'
    exact htable hd fuel garbage table hsetup cpu q hcpu hq
  | createLock | createFull | createExists | createInvalid | createDone | deleteLock
  | deleteMissing | deleteObject | deleteDone | getMissing | getFound | getLoad => cases hmem

/-- A step emits at most one event. -/
theorem step_events (hs : Step cfg topo h s es s') {before after : List Event} {e : Event}
    (heq : es = before ++ e :: after) : before = [] ∧ es = [e] := by
  have hlen : es.length ≤ 1 := by cases hs <;> simp
  rw [heq, List.length_append, List.length_cons] at hlen
  have hb : before = [] := List.eq_nil_of_length_eq_zero (by omega)
  have ha : after = [] := List.eq_nil_of_length_eq_zero (by omega)
  exact ⟨hb, by rw [heq, hb, ha]; rfl⟩

/-- **Runs**: the default policy keeps to the group's queues, the other one as far as its
tables do. -/
theorem ownQueues_of_table (hcfg : cfg.Representable) {a : Args}
    (htable : a.policy ≠ .default → OwnTable cfg topo h a.first a.num) :
    OwnQueues cfg topo h a := by
  intro tr s hr
  refine Reach.invariant (I := fun tr _ => Causal _ tr) (fun _ _ => Causal.nil) ?_ hr
  intro tr es s s' hr hcausal hs
  refine hcausal.append fun before e after heq t id q he ha => ?_
  obtain ⟨rfl, hes⟩ := step_events hs heq
  rw [List.append_nil] at ha
  exact got_step hcfg (inv_reach hr) hs (hes.trans (by rw [he])) ha htable

/-- Every entry of a table is handed out in some run. -/
theorem exists_run {first num fuel cpu q : Nat} {garbage : Nat → QueueRange} {table : List Nat}
    (hpos : 0 < num) (hfits : first + num ≤ cfg.maxQueues)
    (hsetup : setupCPURoundRobinData cfg.queueBits fuel h garbage first num
      (List.replicate h.getMaxCPUs 0) = .ok table)
    (hcpu : topo.available cpu) (hq : table[cpu]? = some q) :
    ∃ s, Reach (machine cfg topo h) [.created 0 0 first num .cpuRR, .got 0 0 q] s := by
  have hpolicy :
      setupPolicy cfg.queueBits fuel h garbage first num .cpuRR = .ok (.queues table) := by
    rw [setupPolicy, if_neg (fun hc => by cases hc), hsetup]
    rfl
  have hstart : Reach (machine cfg topo h) [] .initial := Reach.init rfl
  obtain ⟨s₁, hlock, hcall₁, hnum, hnone⟩ : ∃ s₁, Step cfg topo h .initial [] s₁ ∧
      s₁.call 0 = .creating 0 first num .cpuRR ∧ s₁.numQueueGroups = 0 ∧ s₁.queueGroups 0 = none :=
    ⟨_, .createLock rfl rfl (by decide) hpos hfits, Function.update_self .., rfl, rfl⟩
  obtain ⟨s₂, hdone, hcall₂, hentry, hobject⟩ : ∃ s₂,
      Step cfg topo h s₁ [.created 0 0 first num .cpuRR] s₂ ∧ s₂.call 0 = .idle ∧
      s₂.queueGroups 0 = some s₁.next ∧
      s₂.objects s₁.next = some ⟨first, num, .cpuRR, .queues table⟩ :=
    ⟨_, .createDone hcall₁ (by rw [hnum]; decide) hnone rfl hpolicy,
      by simp [State.unlock, State.goto], by simp, by simp⟩
  obtain ⟨s₃, hfound, hcall₃, hobject₃⟩ : ∃ s₃, Step cfg topo h s₂ [] s₃ ∧
      s₃.call 0 = .found 0 s₁.next ∧ s₃.objects = s₂.objects :=
    ⟨_, .getFound hcall₂ (by decide) hentry, by simp [State.goto], rfl⟩
  have hget : Step cfg topo h s₃ [.got 0 0 q] (s₃.goto 0 .idle) :=
    .getCPU hcall₃ (by rw [hobject₃]; exact hobject) (fun hc => by cases hc) rfl hcpu hq
  exact ⟨_, (((hstart.step hlock).step hdone).step hfound).step hget⟩

theorem ownTable_of_ownQueues {first num : Nat} (hpos : 0 < num)
    (hfits : first + num ≤ cfg.maxQueues) (hown : OwnQueues cfg topo h ⟨first, num, .cpuRR⟩) :
    OwnTable cfg topo h first num := by
  intro fuel garbage table hsetup cpu q hcpu hq
  obtain ⟨s, hr⟩ := exists_run hpos hfits hsetup hcpu hq
  exact hown _ s hr [.created 0 0 first num .cpuRR] _ [] rfl 0 0 q rfl rfl

end OwnQueues

/-! ## Which tables keep to the group -/

/-- The group has a queue for each available node, or all the queues there are, or only
queue 0, or (with at least two queues) either node 0 is not available or the group
contains queue `num - 2` and no node between 0 and `num - 1` is available. -/
def TableFits (queueBits : Nat) (topo : Topology) (first num : Nat) : Prop :=
  (HardwareInfo.init topo .empty).numAvailableNUMANodes ≤ num ∨ num = 2 ^ queueBits ∨
  (num = 1 ∧ first = 0) ∨
  (2 ≤ num ∧ (topo.nodeAvailable 0 →
    first ≤ num - 2 ∧ ∀ n, 0 < n → n < num - 1 → ¬ topo.nodeAvailable n))

section OwnTable

variable {cfg : Limits} {topo : Topology} {first num : Nat}

theorem skipped_iff {n : Nat} :
    Skipped topo.describe num n ↔ topo.nodeAvailable n ∧ 0 < n ∧ n < num - 1 := by
  unfold Skipped
  rw [Topology.isNode_describe]

theorem cpu_node {c : Nat} (hc : topo.available c) :
    topo.describe.isNode (topo.nodeOfCPU c) ∧ topo.describe.isInNode (topo.nodeOfCPU c) c :=
  ⟨Topology.isNode_describe.mpr (Topology.nodeAvailable_nodeOfCPU hc),
    Topology.isInNode_describe.mpr ⟨hc, rfl⟩⟩

/-- The queue of a CPU whose node was reached. -/
theorem entry_reached {table : List Nat} {garbage : Nat → QueueRange} {n c : Nat}
    (hnum : num ≤ 2 ^ cfg.queueBits) (hpos : 0 < num)
    (ht : Assigned cfg.queueBits topo.describe
      (sharedRanges cfg.queueBits topo.describe num garbage) topo.describe.getMaxNUMANodes table)
    (hn : topo.describe.isNode n) (hc : topo.describe.isInNode n c)
    (hsk : ¬ Skipped topo.describe num n) :
    table[c]? = some (if num - 1 ≤ n then num - 1 else num - 2) := by
  rw [ht.2 n c (HardwareInfo.isNode_lt hn) hn hc, rangeQueue, sharedRanges_reached hn hsk]
  simp only [Nat.mod_one, Nat.add_zero, Nat.mod_mod]
  rw [Nat.mod_eq_of_lt]
  split <;> omega

theorem ownTable_of_fits (hcfg : cfg.Representable) (hpos : 0 < num)
    (hfits : first + num ≤ cfg.maxQueues) (hcond : TableFits cfg.queueBits topo first num) :
    OwnTable cfg topo topo.describe first num := by
  intro fuel garbage table hsetup cpu q hcpu hq
  have hs := topo.sound_describe
  have hbits := hcfg.maxQueues_le
  have hlt := hcfg.maxQueues_lt
  obtain ⟨hnode, hin⟩ := cpu_node hcpu
  by_cases henough : topo.describe.numAvailableNUMANodes ≤ num
  · obtain ⟨table', hrun, hentries⟩ := setup_distinct fuel garbage hs List.length_replicate henough
      (show first + num ≤ 2 ^ cfg.queueBits by omega)
    rw [hsetup] at hrun
    cases hrun
    obtain ⟨k, hk, hlt, hend⟩ := hentries _ cpu hnode hin
    rw [hq, Option.some.injEq] at hk
    omega
  · have ht := setup_shared_result hs List.length_replicate hpos (by omega) (by omega) hsetup
    unfold TableFits at hcond
    rw [HardwareInfo.init_empty] at hcond
    rcases hcond with hc | hc | ⟨rfl, rfl⟩ | ⟨htwo, hc⟩
    · exact absurd hc henough
    · -- every id is a queue of the group
      rw [ht.2 _ cpu (HardwareInfo.isNode_lt hnode) hnode hin, Option.some.injEq] at hq
      have := Nat.mod_lt (x := (sharedRanges cfg.queueBits topo.describe num garbage
          (topo.nodeOfCPU cpu)).first + nodeRank topo.describe (topo.nodeOfCPU cpu) cpu %
          (sharedRanges cfg.queueBits topo.describe num garbage (topo.nodeOfCPU cpu)).num)
        (Nat.two_pow_pos cfg.queueBits)
      unfold rangeQueue at hq
      omega
    · rw [entry_reached (by omega) Nat.one_pos ht hnode hin fun hsk => by
        have := hsk.2
        omega, Option.some.injEq, if_pos (Nat.zero_le _)] at hq
      omega
    · by_cases h0 : topo.nodeAvailable 0
      · obtain ⟨hfirst, hnone⟩ := hc h0
        have hsk : ¬ Skipped topo.describe num (topo.nodeOfCPU cpu) := by
          rw [skipped_iff]
          rintro ⟨hav, hpos, hlt⟩
          exact hnone _ hpos hlt hav
        rw [entry_reached (by omega) hpos ht hnode hin hsk, Option.some.injEq] at hq
        split at hq <;> omega
      · -- the set-up would not have ended
        rw [setup_diverges hs (by omega) htwo (by omega)
          (fun hn => h0 (Topology.isNode_describe.mp hn))] at hsetup
        cases hsetup

theorem fits_of_ownTable (hcfg : cfg.Representable) (hpos : 0 < num)
    (hfits : first + num ≤ cfg.maxQueues) (hown : OwnTable cfg topo topo.describe first num) :
    TableFits cfg.queueBits topo first num := by
  have hs := topo.sound_describe
  have hbits := hcfg.maxQueues_le
  have hlt := hcfg.maxQueues_lt
  -- what the stack holds is up to us: a queue outside the group
  have hout : num ≠ 2 ^ cfg.queueBits →
      ∃ out, out < 2 ^ cfg.queueBits ∧ ¬ (first ≤ out ∧ out < first + num) := by
    intro hall
    by_cases hf : first = 0
    · exact ⟨num, by omega, by omega⟩
    · exact ⟨0, Nat.two_pow_pos _, by omega⟩
  by_contra hcond
  unfold TableFits at hcond
  rw [HardwareInfo.init_empty] at hcond
  push Not at hcond
  obtain ⟨hfew, hall, hone, htwo⟩ := hcond
  have h0 : 2 ≤ num → topo.describe.isNode 0 := fun h2 => Topology.isNode_describe.mpr (htwo h2).1
  obtain ⟨out, hout, hno⟩ := hout hall
  obtain ⟨table, hsetup⟩ : ∃ table, setupCPURoundRobinData cfg.queueBits (num - 1) topo.describe
      (fun _ => ⟨out, 1⟩) first num (List.replicate topo.describe.getMaxCPUs 0) = .ok table :=
    setup_shared_total hs List.length_replicate hpos (by omega) hfew h0 (Nat.le_refl _)
      fun _ _ => Nat.one_pos
  have ht := setup_shared_result hs List.length_replicate hpos (by omega) hfew hsetup
  have hentry := hown _ _ _ hsetup
  -- a CPU of an available node
  have hcpu : ∀ n, topo.nodeAvailable n → ∃ c, topo.available c ∧ topo.describe.isNode n ∧
      topo.describe.isInNode n c := by
    rintro n ⟨c, hc, ha, rfl⟩
    have hav : topo.available c := ⟨hc, ha⟩
    exact ⟨c, hav, cpu_node hav⟩
  by_cases h1 : num = 1
  · obtain ⟨c, hc, hnode, hin⟩ := hcpu _ Topology.nodeAvailable_lastNode
    have hq := entry_reached (by omega) hpos ht hnode hin fun hsk => by
      have := hsk.2
      omega
    have hfirst := hone h1
    rw [h1, if_pos (Nat.zero_le _)] at hq
    have := hentry c _ hc hq
    omega
  · obtain ⟨hav0, hrest⟩ := htwo (by omega)
    by_cases hfirst : first ≤ num - 2
    · -- a node that was skipped uses what the stack held
      obtain ⟨n, hn, hlast, hav⟩ := hrest hfirst
      obtain ⟨c, hc, hnode, hin⟩ := hcpu n hav
      have hq := ht.2 n c (HardwareInfo.isNode_lt hnode) hnode hin
      rw [rangeQueue, sharedRanges_skipped (skipped_iff.mpr ⟨hav, hn, hlast⟩), Nat.mod_one,
        Nat.add_zero, Nat.mod_eq_of_lt hout] at hq
      exact hno (hentry c out hc hq)
    · -- node 0 uses queue `num - 2`
      obtain ⟨c, hc, hnode, hin⟩ := hcpu 0 hav0
      have hq := entry_reached (by omega) hpos ht hnode hin fun hsk => Nat.lt_irrefl 0 hsk.2.1
      have := hentry c _ hc hq
      rw [if_neg (by omega)] at this
      omega

end OwnTable

/-- **Which groups hand out only their own queues.** -/
theorem group_hands_out_its_queues (cfg : Limits) (topo : Topology) (a : Args)
    (hcfg : cfg.Representable) (hpos : 0 < a.num) (hfits : a.first + a.num ≤ cfg.maxQueues)
    (hpolicy : a.policy.isValidPolicy = true) :
    OwnQueues cfg topo (HardwareInfo.init topo .empty) a ↔
      a.policy = .default ∨ TableFits cfg.queueBits topo a.first a.num := by
  rw [HardwareInfo.init_empty]
  constructor
  · intro hown
    obtain ⟨first, num, policy⟩ := a
    cases policy with
    | default => exact .inl rfl
    | cpuRR => exact .inr (fits_of_ownTable hcfg hpos hfits (ownTable_of_ownQueues hpos hfits hown))
    | unknown v => cases hpolicy
  · rintro (hd | hcond)
    · exact ownQueues_of_table hcfg fun hne => absurd hd hne
    · exact ownQueues_of_table hcfg fun _ => ownTable_of_fits hcfg hpos hfits hcond

theorem group_hands_out_its_queues_sparse :
    (Limits.mk 8 8 8 8).Representable ∧
    OwnQueues ⟨8, 8, 8, 8⟩ sparseTopology (HardwareInfo.init sparseTopology .empty)
      ⟨2, 3, .cpuRR⟩ := by
  have hcfg : (Limits.mk 8 8 8 8).Representable := ⟨by decide, by decide⟩
  refine ⟨hcfg, ?_⟩
  exact (group_hands_out_its_queues ⟨8, 8, 8, 8⟩ sparseTopology ⟨2, 3, .cpuRR⟩ hcfg (by decide)
    (by decide) rfl).mpr (.inr (.inl (by decide)))

/-- The group made of queue 3 hands out queue 0 on a machine with two NUMA nodes. -/
theorem group_hands_out_queue_zero :
    ¬ OwnQueues ⟨8, 8, 8, 8⟩ twoNodes (HardwareInfo.init twoNodes .empty) ⟨3, 1, .cpuRR⟩ := by
  intro hown
  have hsetup : setupCPURoundRobinData 8 0 (HardwareInfo.init twoNodes .empty) (fun _ => ⟨0, 0⟩) 3 1
      (List.replicate (HardwareInfo.init twoNodes .empty).getMaxCPUs 0) = .ok [0, 0] := by
    rfl
  obtain ⟨s, hr⟩ : ∃ s, Reach (machine ⟨8, 8, 8, 8⟩ twoNodes (HardwareInfo.init twoNodes .empty))
      [.created 0 0 3 1 .cpuRR, .got 0 0 0] s :=
    exists_run (by decide) (by decide) hsetup (show twoNodes.available 0 by decide) rfl
  have := hown _ s hr [.created 0 0 3 1 .cpuRR] _ [] rfl 0 0 0 rfl rfl
  exact absurd this.1 (by decide)

end Groups

end Tagaspi
