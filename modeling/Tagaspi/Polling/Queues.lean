import Mathlib.Algebra.BigOperators.Group.Finset.Basic
import Tagaspi.Environment

/-!
# Which instance polls which queue

`Polling::initialize` divides the queues among the polling instances: each gets
the quotient, the first ones one queue more, and an instance without a queue is not
registered. The counts are computed on 64 bits and kept on 32, the running queue on
the width of `gaspi_queue_id_t`.

- `queuesBefore`: the queues of the instances before a given one, without any
  truncation. `instanceQueues_eq`, `queuesBefore_succ`: the truncated counts add up
  to it.
- `Partitioned`: what a division of the queues should be. It holds of every division
  of this form (`partitioned_of_divided`).
- `queues_partitioned`: `Polling::initialize` returns, and then the instances that
  were registered partition the queues.
-/

namespace Tagaspi

open Loops Lts

/-! ## The shares -/

/-- How many queues the instances before `ins` get. -/
def queuesBefore (maxQueues n ins : Nat) : Nat :=
  ins * (maxQueues / n) + min ins (maxQueues % n)

section Shares

variable {maxQueues n : Nat}

theorem qppi_eq (hmax : maxQueues < 2 ^ numberBits) : qppi maxQueues n = maxQueues / n :=
  Nat.mod_eq_of_lt (Nat.lt_of_le_of_lt (Nat.div_le_self _ _) hmax)

theorem remq_eq (hmax : maxQueues < 2 ^ numberBits) : remq maxQueues n = maxQueues % n :=
  Nat.mod_eq_of_lt (Nat.lt_of_le_of_lt (Nat.mod_le _ _) hmax)

/-- No count is truncated: an instance gets no more queues than there are. -/
theorem instanceQueues_eq (hmax : maxQueues < 2 ^ numberBits) (ins : Nat) :
    instanceQueues maxQueues n ins =
      maxQueues / n + if ins < maxQueues % n then 1 else 0 := by
  unfold instanceQueues
  rw [qppi_eq hmax, remq_eq hmax]
  refine Nat.mod_eq_of_lt (Nat.lt_of_le_of_lt ?_ hmax)
  by_cases hins : ins < maxQueues % n
  · rw [if_pos hins]
    -- a positive remainder leaves room for one more
    have hdiv := Nat.div_add_mod maxQueues n
    rcases Nat.eq_zero_or_pos n with rfl | hn
    · rw [Nat.div_zero]
      rw [Nat.mod_zero] at hins
      omega
    · have hle := Nat.le_mul_of_pos_left (maxQueues / n) hn
      omega
  · rw [if_neg hins]
    exact Nat.div_le_self _ _

theorem queuesBefore_zero : queuesBefore maxQueues n 0 = 0 := by
  unfold queuesBefore
  rw [Nat.zero_mul, Nat.zero_min]

theorem queuesBefore_succ (hmax : maxQueues < 2 ^ numberBits) (ins : Nat) :
    queuesBefore maxQueues n (ins + 1) =
      queuesBefore maxQueues n ins + instanceQueues maxQueues n ins := by
  rw [instanceQueues_eq hmax]
  unfold queuesBefore
  rw [Nat.succ_mul]
  by_cases hins : ins < maxQueues % n
  · rw [if_pos hins]
    omega
  · rw [if_neg hins]
    omega

/-- All instances together get all queues. -/
theorem queuesBefore_all (maxQueues : Nat) (hn : 0 < n) :
    queuesBefore maxQueues n n = maxQueues := by
  unfold queuesBefore
  rw [Nat.min_eq_right (Nat.le_of_lt (Nat.mod_lt _ hn))]
  exact Nat.div_add_mod maxQueues n

theorem queuesBefore_mono (maxQueues n : Nat) {i j : Nat} (hij : i ≤ j) :
    queuesBefore maxQueues n i ≤ queuesBefore maxQueues n j := by
  have := Nat.mul_le_mul_right (maxQueues / n) hij
  unfold queuesBefore
  omega

theorem queuesBefore_le (maxQueues : Nat) (hn : 0 < n) {ins : Nat} (hins : ins ≤ n) :
    queuesBefore maxQueues n ins ≤ maxQueues :=
  (queuesBefore_mono maxQueues n hins).trans (Nat.le_of_eq (queuesBefore_all maxQueues hn))

/-- The instances without a queue are the last ones. -/
theorem queuesBefore_congr (hmax : maxQueues < 2 ^ numberBits) {i j : Nat} (hij : i ≤ j)
    (hnone : ∀ k, i ≤ k → k < j → instanceQueues maxQueues n k = 0) :
    queuesBefore maxQueues n j = queuesBefore maxQueues n i := by
  induction j with
  | zero => rw [Nat.le_zero.mp hij]
  | succ j ih =>
    rcases Nat.of_le_succ hij with hle | heq
    · rw [queuesBefore_succ hmax, hnone j hle (Nat.lt_succ_self j), Nat.add_zero]
      exact ih hle fun k hk hkj => hnone k hk (Nat.lt_succ_of_lt hkj)
    · rw [heq]

/-- Every queue is in the share of some instance. -/
theorem exists_instance (hmax : maxQueues < 2 ^ numberBits) (k : Nat) {queue : Nat}
    (hq : queue < queuesBefore maxQueues n k) :
    ∃ ins, ins < k ∧ queuesBefore maxQueues n ins ≤ queue ∧
      queue < queuesBefore maxQueues n ins + instanceQueues maxQueues n ins := by
  induction k with
  | zero =>
    rw [queuesBefore_zero] at hq
    exact absurd hq (Nat.not_lt_zero _)
  | succ k ih =>
    by_cases hlt : queue < queuesBefore maxQueues n k
    · obtain ⟨ins, hins, hrange⟩ := ih hlt
      exact ⟨ins, Nat.lt_succ_of_lt hins, hrange⟩
    · refine ⟨k, Nat.lt_succ_self k, Nat.le_of_not_lt hlt, ?_⟩
      rwa [queuesBefore_succ hmax] at hq

end Shares

/-! ## Partitions of the queues -/

/-- `numQueues` of `pollQueues`: where the loop over the queues of `info` ends. -/
def PollingInfo.last (info : PollingInfo) : Nat :=
  (info.firstQueue + info.numQueues) % 2 ^ numberBits

/-- `pollQueues` goes through `queue`. -/
def PollingInfo.polls (info : PollingInfo) (queue : Nat) : Prop :=
  info.firstQueue ≤ queue ∧ queue < info.last

/-- The instances that are `registered`, out of `n`, partition the queues. -/
structure Partitioned (cfg : Limits) (n : Nat) (info : Nat → PollingInfo)
    (registered : Nat → Prop) : Prop where
  /-- The instances without a queue are exactly those that are not registered. -/
  empty : ∀ ins, ins < n → ((info ins).numQueues = 0 ↔ ¬ registered ins)
  cover : ∀ queue, (∃ ins, ins < n ∧ registered ins ∧ (info ins).polls queue) ↔
    queue < cfg.maxQueues
  disjoint : ∀ i j queue, i < n → j < n → registered i → registered j →
    (info i).polls queue → (info j).polls queue → i = j
  /-- The first one starts at queue 0, the next one where the one before it ends. -/
  first : ∀ j, j < n → registered j → (∀ k, k < j → ¬ registered k) → (info j).firstQueue = 0
  contiguous : ∀ i j, i < j → j < n → registered i → registered j →
    (∀ k, i < k → k < j → ¬ registered k) → (info i).last = (info j).firstQueue
  balanced : ∀ i j, i < n → j < n → (info i).numQueues ≤ (info j).numQueues + 1
  /-- No count is truncated. -/
  counts : ∀ ins, ins < n →
    (info ins).numQueues = cfg.maxQueues / n + if ins < cfg.maxQueues % n then 1 else 0
  /-- Nor is a queue, or the end of a range. -/
  queues : ∀ ins, ins < n → registered ins →
    (info ins).firstQueue = ∑ j ∈ Finset.range ins, (info j).numQueues ∧
    (info ins).last = (info ins).firstQueue + (info ins).numQueues ∧
    (info ins).last < 2 ^ cfg.queueBits

/-- Instance `ins` has its share of the queues. -/
def Divided (cfg : Limits) (n ins : Nat) (info : PollingInfo) : Prop :=
  info.numQueues = instanceQueues cfg.maxQueues n ins ∧
    (info.numQueues ≠ 0 → info.firstQueue = queuesBefore cfg.maxQueues n ins)

section Partition

variable {cfg : Limits} {n : Nat} {info : Nat → PollingInfo} {registered : Nat → Prop}

theorem sum_numQueues (hmax : cfg.maxQueues < 2 ^ numberBits)
    (hdiv : ∀ ins, ins < n → Divided cfg n ins (info ins)) (k : Nat) (hk : k ≤ n) :
    ∑ j ∈ Finset.range k, (info j).numQueues = queuesBefore cfg.maxQueues n k := by
  induction k with
  | zero => exact queuesBefore_zero.symm
  | succ k ih =>
    rw [Finset.sum_range_succ, ih (Nat.le_of_succ_le hk), (hdiv k hk).1, queuesBefore_succ hmax]

/-- **Shares make a partition**, if no value is too large for its type. -/
theorem partitioned_of_divided (hmax : cfg.maxQueues < 2 ^ numberBits)
    (hid : cfg.maxQueues < 2 ^ cfg.queueBits) (hn : 0 < n)
    (hdiv : ∀ ins, ins < n → Divided cfg n ins (info ins))
    (hreg : ∀ ins, ins < n → (registered ins ↔ (info ins).numQueues ≠ 0)) :
    Partitioned cfg n info registered := by
  have hfirst : ∀ ins, ins < n → registered ins →
      (info ins).firstQueue = queuesBefore cfg.maxQueues n ins := fun ins hins hr =>
    (hdiv ins hins).2 ((hreg ins hins).mp hr)
  have hnone : ∀ ins, ins < n → ¬ registered ins → instanceQueues cfg.maxQueues n ins = 0 := by
    intro ins hins hr
    by_contra hne
    refine hr ((hreg ins hins).mpr ?_)
    rwa [(hdiv ins hins).1]
  have hend : ∀ ins, ins < n → registered ins →
      (info ins).firstQueue + (info ins).numQueues = queuesBefore cfg.maxQueues n (ins + 1) := by
    intro ins hins hr
    rw [hfirst ins hins hr, (hdiv ins hins).1, queuesBefore_succ hmax]
  have hlast : ∀ ins, ins < n → registered ins →
      (info ins).last = queuesBefore cfg.maxQueues n (ins + 1) := by
    intro ins hins hr
    have hle := queuesBefore_le cfg.maxQueues hn (show ins + 1 ≤ n from hins)
    unfold PollingInfo.last
    rw [hend ins hins hr]
    exact Nat.mod_eq_of_lt (Nat.lt_of_le_of_lt hle hmax)
  refine ⟨fun ins hins => ?_, fun queue => ?_, ?_, ?_, ?_, ?_, ?_, ?_⟩
  · rw [hreg ins hins, not_not]
  · constructor
    · rintro ⟨ins, hins, hr, -, hlt⟩
      rw [hlast ins hins hr] at hlt
      exact Nat.lt_of_lt_of_le hlt (queuesBefore_le _ hn hins)
    · intro hq
      rw [← queuesBefore_all cfg.maxQueues hn] at hq
      obtain ⟨ins, hins, hge, hlt⟩ := exists_instance hmax n hq
      have hr : registered ins := by
        by_contra hr
        rw [hnone ins hins hr] at hlt
        omega
      refine ⟨ins, hins, hr, ?_, ?_⟩
      · rwa [hfirst ins hins hr]
      · rwa [hlast ins hins hr, queuesBefore_succ hmax]
  · intro i j queue hi hj hri hrj hpi hpj
    have hpi' := hpi
    obtain ⟨hgei, hlti⟩ := hpi
    obtain ⟨hgej, hltj⟩ := hpj
    rw [hfirst i hi hri] at hgei
    rw [hlast i hi hri] at hlti
    rw [hfirst j hj hrj] at hgej
    rw [hlast j hj hrj] at hltj
    -- the range of the smaller one ends before that of the larger one begins
    rcases Nat.lt_trichotomy i j with hlt | heq | hgt
    · have := queuesBefore_mono cfg.maxQueues n (show i + 1 ≤ j from hlt)
      omega
    · exact heq
    · have := queuesBefore_mono cfg.maxQueues n (show j + 1 ≤ i from hgt)
      omega
  · intro j hj hr hbefore
    rw [hfirst j hj hr, queuesBefore_congr hmax (Nat.zero_le j) fun k _ hk =>
      hnone k (hk.trans hj) (hbefore k hk), queuesBefore_zero]
  · intro i j hij hj hri hrj hbetween
    rw [hlast i (hij.trans hj) hri, hfirst j hj hrj]
    exact (queuesBefore_congr hmax hij fun k hk hkj =>
      hnone k (hkj.trans hj) (hbetween k hk hkj)).symm
  · intro i j hi hj
    rw [(hdiv i hi).1, (hdiv j hj).1, instanceQueues_eq hmax, instanceQueues_eq hmax]
    split <;> omega
  · intro ins hins
    rw [(hdiv ins hins).1, instanceQueues_eq hmax]
  · intro ins hins hr
    refine ⟨?_, ?_, ?_⟩
    · rw [sum_numQueues hmax hdiv ins (Nat.le_of_lt hins), hfirst ins hins hr]
    · rw [hlast ins hins hr, hend ins hins hr]
    · rw [hlast ins hins hr]
      exact Nat.lt_of_le_of_lt (queuesBefore_le _ hn hins) hid

end Partition

/-! ## The loop of `Polling::initialize` -/

section Loop

variable {cfg : Limits} {n : Nat}

/-- The instances below `s.ins` have their shares. -/
structure Dividing (cfg : Limits) (n : Nat) (s : Registration) : Prop where
  length : s.infos.length = n
  ins : s.ins ≤ n
  queue : s.queue = queuesBefore cfg.maxQueues n s.ins
  done : ∀ ins, ins < s.ins → ∃ info, s.infos[ins]? = some info ∧ Divided cfg n ins info
  /-- The entries that were not reached yet are those that `resize` has made. -/
  rest : ∀ ins, s.ins ≤ ins → ins < n → s.infos[ins]? = some ⟨0, 0⟩

theorem dividing_start :
    Dividing cfg n ⟨List.replicate n ⟨0, 0⟩, 0, 0⟩ where
  length := List.length_replicate
  ins := Nat.zero_le n
  queue := queuesBefore_zero.symm
  done ins hins := absurd hins (Nat.not_lt_zero ins)
  rest ins _ hins := by
    rw [List.getElem?_replicate, if_pos hins]

/-- A turn of the loop gives instance `s.ins` its share. -/
theorem dividing_step (hmax : cfg.maxQueues < 2 ^ numberBits)
    (hid : cfg.maxQueues < 2 ^ cfg.queueBits) (hlt : n < 2 ^ numberBits) {s : Registration}
    (hs : Dividing cfg n s) (hins : s.ins < n) :
    ∃ s', registerInstance cfg n s = .ok s' ∧ Dividing cfg n s' ∧ s'.ins = s.ins + 1 := by
  have hnext : (s.ins + 1) % 2 ^ numberBits = s.ins + 1 := Nat.mod_eq_of_lt (by omega)
  have hle := queuesBefore_le cfg.maxQueues (Nat.lt_of_le_of_lt (Nat.zero_le _) hins)
    (show s.ins + 1 ≤ n from hins)
  have hsucc := queuesBefore_succ (n := n) hmax s.ins
  -- entry `s.ins` is set, the others stay
  have hset : ∀ (infos : List PollingInfo) (info : PollingInfo), infos.length = n →
      (∀ k, infos[k]? = if k = s.ins then some info else s.infos[k]?) →
      Divided cfg n s.ins info →
      Dividing cfg n ⟨infos, s.ins + 1, queuesBefore cfg.maxQueues n (s.ins + 1)⟩ := by
    intro infos info hlen hget hinfo
    refine ⟨hlen, hins, rfl, fun k hk => ?_, fun k hk hkn => ?_⟩
    · show ∃ info, infos[k]? = some info ∧ _
      rw [hget k]
      by_cases hks : k = s.ins
      · subst hks
        exact ⟨info, if_pos rfl, hinfo⟩
      · rw [if_neg hks]
        exact hs.done k (by have : k < s.ins + 1 := hk; omega)
    · have hk' : s.ins + 1 ≤ k := hk
      show infos[k]? = _
      rw [hget k, if_neg (by omega)]
      exact hs.rest k (by omega) hkn
  unfold registerInstance
  by_cases hpos : 0 < instanceQueues cfg.maxQueues n s.ins
  · simp only [hpos, if_true]
    rw [hnext, hs.queue, ← hsucc, Nat.mod_eq_of_lt (by omega)]
    refine ⟨_, rfl, hset _ ⟨queuesBefore cfg.maxQueues n s.ins,
      instanceQueues cfg.maxQueues n s.ins⟩ ?_ (fun k => ?_) ⟨rfl, fun _ => rfl⟩, rfl⟩
    · rw [List.length_set, hs.length]
    · rw [List.getElem?_set]
      by_cases hk : s.ins = k
      · rw [if_pos hk, if_pos hk.symm, if_pos (by rw [hs.length]; exact hins)]
      · rw [if_neg hk, if_neg (Ne.symm hk)]
  · have hzero : instanceQueues cfg.maxQueues n s.ins = 0 := Nat.eq_zero_of_not_pos hpos
    have hsame : queuesBefore cfg.maxQueues n (s.ins + 1) = queuesBefore cfg.maxQueues n s.ins := by
      omega
    simp only [hpos, if_false]
    rw [hnext, hs.queue, ← hsame, hzero]
    refine ⟨_, rfl, hset _ ⟨0, 0⟩ ?_ (fun k => ?_) ⟨hzero.symm, fun hne => absurd rfl hne⟩, rfl⟩
    · rw [List.length_modify, hs.length]
    · rw [List.getElem?_modify]
      by_cases hk : s.ins = k
      · subst hk
        rw [if_pos rfl, hs.rest s.ins (Nat.le_refl _) hins]
        exact congrArg some (if_pos rfl)
      · rw [if_neg (Ne.symm hk)]
        simp only [hk, if_false, id_map']

/-- **The loop returns**, and every instance has its share. -/
theorem polling_init_divides (hmax : cfg.maxQueues < 2 ^ numberBits)
    (hid : cfg.maxQueues < 2 ^ cfg.queueBits) (hn : 0 < n) (hlt : n < 2 ^ numberBits) {fuel : Nat}
    (hfuel : n ≤ fuel) :
    ∃ infos, Polling.init fuel cfg n = .ok infos ∧ infos.length = n ∧
      ∀ ins, ins < n → ∃ info, infos[ins]? = some info ∧ Divided cfg n ins info := by
  have hstep : ∀ s : Registration, Dividing cfg n s → decide (s.ins < n) = true →
      ∃ s', registerInstance cfg n s = .ok s' ∧ Dividing cfg n s' ∧ n - s'.ins < n - s.ins := by
    intro s hs hc
    have hins := of_decide_eq_true hc
    obtain ⟨s', hrun, hs', hnext⟩ := dividing_step hmax hid hlt hs hins
    exact ⟨s', hrun, hs', by omega⟩
  obtain ⟨s, hrun, hs, hend⟩ := whileLoop_total (fun s : Registration => n - s.ins) hstep
    fuel ⟨List.replicate n ⟨0, 0⟩, 0, 0⟩ dividing_start hfuel
  have hins : s.ins = n := Nat.le_antisymm hs.ins (Nat.le_of_not_lt (of_decide_eq_false hend))
  rw [polling_init_of_ne (Nat.ne_of_gt hn), hrun]
  exact ⟨s.infos, rfl, hs.length, fun ins hlt => hs.done ins (by rw [hins]; exact hlt)⟩

end Loop

/-! ## The registered instances -/

namespace Lifecycle

/-- `_queuePollingInfos[ins]`, without the address of its instance. -/
def State.info (s : State) (ins : Nat) : PollingInfo :=
  ⟨(s.infos ins).firstQueue, (s.infos ins).numQueues⟩

/-- A polling task was spawned for the queues of instance `ins`. -/
def State.registered (s : State) (ins : Nat) : Prop :=
  ∃ i, i < s.next ∧ (s.instances i).function = .pollQueues ins

/-- The instances below `k` have their shares, and those with a queue are registered. -/
structure Enrolled (cfg : Limits) (n k : Nat) (s : State) : Prop where
  divided : ∀ ins, ins < k → Divided cfg n ins (s.info ins)
  registered : ∀ ins, s.registered ins ↔ ins < k ∧ 0 < instanceQueues cfg.maxQueues n ins

/-- How far `Polling::initialize` has come. -/
structure Enrolling (cfg : Limits) (n : Nat) (s : State) : Prop where
  loop : ∀ ins queue, s.main = .registering ins queue →
    ins ≤ n ∧ queue = queuesBefore cfg.maxQueues n ins ∧ Enrolled cfg n ins s
  after : s.main = .registerNotifications ∨ s.main = .ready → Enrolled cfg n n s

section Enrol

variable {cfg : Limits} {n k : Nat} {s s' : State} {es tr : List Event}

theorem registered_congr (hnext : s'.next = s.next)
    (hfun : ∀ i, (s'.instances i).function = (s.instances i).function) (ins : Nat) :
    s'.registered ins ↔ s.registered ins := by
  unfold State.registered
  simp only [hnext, hfun]

theorem Enrolled.congr (h : Enrolled cfg n k s) (hinfos : s'.infos = s.infos)
    (hnext : s'.next = s.next)
    (hfun : ∀ i, (s'.instances i).function = (s.instances i).function) :
    Enrolled cfg n k s' where
  divided ins hins := by
    unfold State.info
    rw [hinfos]
    exact h.divided ins hins
  registered ins := (registered_congr hnext hfun ins).trans (h.registered ins)

/-- A step that changes neither the infos nor what an instance polls. -/
theorem Enrolling.quiet (h : Enrolling cfg n s) (hmain : s'.main = s.main)
    (hinfos : s'.infos = s.infos) (hnext : s'.next = s.next)
    (hfun : ∀ i, (s'.instances i).function = (s.instances i).function) :
    Enrolling cfg n s' where
  loop ins queue hm := by
    obtain ⟨hle, hqueue, henr⟩ := h.loop ins queue (hmain ▸ hm)
    exact ⟨hle, hqueue, henr.congr hinfos hnext hfun⟩
  after hm := (h.after (by rwa [hmain] at hm)).congr hinfos hnext hfun

/-- A step of `Polling::finalize` or after it. -/
theorem Enrolling.past (hreg : ∀ ins queue, s'.main ≠ .registering ins queue)
    (hnot : s'.main ≠ .registerNotifications) (hready : s'.main ≠ .ready) :
    Enrolling cfg n s' where
  loop ins queue hm := absurd hm (hreg ins queue)
  after hm := by
    rcases hm with hm | hm
    · exact absurd hm hnot
    · exact absurd hm hready

theorem modify_function (i : Nat) {f : PollingInstance → PollingInstance}
    (hf : ∀ p, (f p).function = p.function) (j : Nat) :
    ((s.modify i f).instances j).function = (s.instances j).function := by
  by_cases hj : j = i
  · subst hj
    rw [modify_self, hf]
  · rw [modify_of_ne f hj]

/-- After `registerPolling` the new instance is registered, and the old ones still are. -/
theorem registered_new {f : PollingFunction} (hnext : s'.next = s.next + 1)
    (hinst : s'.instances = Function.update s.instances s.next (.new f)) (ins : Nat) :
    s'.registered ins ↔ s.registered ins ∨ f = .pollQueues ins := by
  unfold State.registered
  rw [hnext, hinst]
  constructor
  · rintro ⟨i, hi, hfun⟩
    by_cases hnew : i = s.next
    · subst hnew
      rw [Function.update_self] at hfun
      exact .inr hfun
    · rw [Function.update_of_ne hnew] at hfun
      exact .inl ⟨i, by omega, hfun⟩
  · rintro (⟨i, hi, hfun⟩ | hfun)
    · refine ⟨i, Nat.lt_succ_of_lt hi, ?_⟩
      rw [Function.update_of_ne (Nat.ne_of_lt hi)]
      exact hfun
    · refine ⟨s.next, Nat.lt_succ_self _, ?_⟩
      rw [Function.update_self]
      exact hfun

/-- The loop sets one entry. -/
theorem divided_update (h : ∀ ins, ins < k → Divided cfg n ins (s.info ins))
    {info : QueuePollingInfo}
    (hinfo : Divided cfg n k ⟨info.firstQueue, info.numQueues⟩) (hinfos : s'.infos =
      Function.update s.infos k info) :
    ∀ ins, ins < k + 1 → Divided cfg n ins (s'.info ins) := by
  intro ins hins
  unfold State.info
  rw [hinfos]
  by_cases hk : ins = k
  · subst hk
    rw [Function.update_self]
    exact hinfo
  · rw [Function.update_of_ne hk]
    exact h ins (by omega)

theorem enrolling_step (hmax : cfg.maxQueues < 2 ^ numberBits)
    (hid : cfg.maxQueues < 2 ^ cfg.queueBits) (hlt : n < 2 ^ numberBits)
    (h : Enrolling cfg n s) (hs : Step cfg n s es s') : Enrolling cfg n s' := by
  have hmod : ∀ {i : Nat} {f : PollingInstance → PollingInstance},
      (∀ p, (f p).function = p.function) → Enrolling cfg n (s.modify i f) := fun hf =>
    h.quiet rfl rfl rfl (modify_function _ hf)
  cases hs with
  | @registerQueue ins queue hm hins hpos =>
    obtain ⟨-, rfl, henr⟩ := h.loop ins queue hm
    have hsucc := queuesBefore_succ (n := n) hmax ins
    have hle := queuesBefore_le cfg.maxQueues
      (Nat.lt_of_le_of_lt (Nat.zero_le _) hins) (show ins + 1 ≤ n from hins)
    rw [Nat.mod_eq_of_lt (by omega), ← hsucc, Nat.mod_eq_of_lt (by omega)]
    refine ⟨fun ins' queue' hm' => ?_, fun hm' => ?_⟩
    · obtain ⟨rfl, rfl⟩ := Main.registering.inj hm'
      refine ⟨hins, rfl, divided_update henr.divided ⟨rfl, fun _ => rfl⟩ rfl, fun j => ?_⟩
      rw [registered_new rfl rfl, henr.registered]
      constructor
      · rintro (⟨hj, hjpos⟩ | hj)
        · exact ⟨Nat.lt_succ_of_lt hj, hjpos⟩
        · cases hj
          exact ⟨Nat.lt_succ_self _, hpos⟩
      · rintro ⟨hj, hjpos⟩
        by_cases hji : j = ins
        · exact .inr (by rw [hji])
        · exact .inl ⟨by omega, hjpos⟩
    · rcases hm' with hm' | hm' <;> cases hm'
  | @registerNone ins queue hm hins hpos =>
    obtain ⟨-, rfl, henr⟩ := h.loop ins queue hm
    have hzero : instanceQueues cfg.maxQueues n ins = 0 := Nat.eq_zero_of_not_pos hpos
    have hsame : queuesBefore cfg.maxQueues n ins = queuesBefore cfg.maxQueues n (ins + 1) := by
      have := queuesBefore_succ (n := n) hmax ins
      omega
    rw [Nat.mod_eq_of_lt (by omega)]
    refine ⟨fun ins' queue' hm' => ?_, fun hm' => ?_⟩
    · obtain ⟨rfl, rfl⟩ := Main.registering.inj hm'
      refine ⟨hins, hsame, divided_update henr.divided ⟨rfl, fun hne => ?_⟩ rfl, fun j => ?_⟩
      · exact absurd hzero hne
      · refine (henr.registered j).trans ⟨?_, ?_⟩
        · rintro ⟨hj, hjpos⟩
          exact ⟨Nat.lt_succ_of_lt hj, hjpos⟩
        · rintro ⟨hj, hjpos⟩
          have hji : j ≠ ins := by
            rintro rfl
            exact hpos hjpos
          exact ⟨by omega, hjpos⟩
    · rcases hm' with hm' | hm' <;> cases hm'
  | @registerEnd ins queue hm hins =>
    obtain ⟨hle, -, henr⟩ := h.loop ins queue hm
    obtain rfl : ins = n := Nat.le_antisymm hle (Nat.le_of_not_lt hins)
    refine ⟨fun _ _ hm' => (by cases hm'), fun _ => henr.congr rfl rfl fun _ => rfl⟩
  | registerNotifications hm =>
    have henr := h.after (.inl hm)
    refine ⟨fun _ _ hm' => (by cases hm'), fun _ => ⟨henr.divided, fun j => ?_⟩⟩
    rw [registered_new rfl rfl, henr.registered]
    exact or_iff_left fun hj => by cases hj
  | finalize | finalizeNone | finalizeQueue | finalizeEnd | setMustFinish | isFinished | clear
  | teardown =>
    exact .past (fun _ _ hm => by cases hm) (fun hm => by cases hm) fun hm => by cases hm
  | @delete h₀ hm =>
    cases h₀ <;> exact .past (fun _ _ hm => by cases hm) (fun hm => by cases hm)
      fun hm => by cases hm
  | notFinished => exact h
  | testContinue | testLeave | call | pollReturn | waited | completed => exact hmod fun _ => rfl
  | poll => exact h

theorem enrolling_reach (hmax : cfg.maxQueues < 2 ^ numberBits)
    (hid : cfg.maxQueues < 2 ^ cfg.queueBits) (hlt : n < 2 ^ numberBits)
    (hr : Reach (machine cfg n) tr s) : Enrolling cfg n s := by
  refine hr.invariant (I := fun _ s => Enrolling cfg n s) (fun s hi => ?_)
    fun _ _ _ _ _ h hs => enrolling_step hmax hid hlt h hs
  refine ⟨fun ins queue hm => ?_, fun hm => ?_⟩
  · rw [hi.main] at hm
    obtain ⟨rfl, rfl⟩ := Main.registering.inj hm
    refine ⟨Nat.zero_le _, queuesBefore_zero.symm, fun ins hins => absurd hins (Nat.not_lt_zero _),
      fun ins => iff_of_false ?_ fun hc => Nat.not_lt_zero _ hc.1⟩
    rintro ⟨i, hi', -⟩
    rw [hi.next] at hi'
    exact Nat.not_lt_zero _ hi'
  · rw [hi.main] at hm
    rcases hm with hm | hm <;> cases hm

end Enrol

end Lifecycle

/-- **The queue pollers partition the queues.** With `n` polling instances the loop of
`Polling::initialize` returns, and in every run the instances that it has registered
partition the queues. -/
theorem queues_partitioned (cfg : Limits) (n : Nat) (hmax : cfg.maxQueues < 2 ^ numberBits)
    (hid : cfg.maxQueues < 2 ^ cfg.queueBits) (hn : 1 ≤ n) (hlt : n < 2 ^ numberBits) :
    (∃ infos, (∀ fuel, n ≤ fuel → Polling.init fuel cfg n = .ok infos) ∧ infos.length = n ∧
      Partitioned cfg n (fun ins => infos.getD ins ⟨0, 0⟩)
        fun ins => (infos.getD ins ⟨0, 0⟩).numQueues ≠ 0) ∧
    ∀ tr s, Reach (Lifecycle.machine cfg n) tr s → s.main = .ready →
      Partitioned cfg n s.info s.registered := by
  refine ⟨?_, fun tr s hr hm => ?_⟩
  · obtain ⟨infos, hrun, hlen, hdiv⟩ := polling_init_divides hmax hid hn hlt (Nat.le_refl n)
    have hdivided : ∀ ins, ins < n → Divided cfg n ins (infos.getD ins ⟨0, 0⟩) := by
      intro ins hins
      obtain ⟨info, hinfo, hd⟩ := hdiv ins hins
      rw [List.getD_eq_getElem?_getD, hinfo]
      exact hd
    refine ⟨infos, fun fuel hfuel => ?_, hlen,
      partitioned_of_divided hmax hid hn hdivided fun _ _ => Iff.rfl⟩
    rw [polling_init_of_ne (Nat.ne_of_gt hn)] at hrun ⊢
    obtain ⟨s, hloop, hs⟩ := bind_eq_ok hrun
    rw [whileLoop_mono hloop hfuel, ok_bind, hs]
  · have henr := (Lifecycle.enrolling_reach hmax hid hlt hr).after (.inr hm)
    refine partitioned_of_divided hmax hid hn henr.divided fun ins hins => ?_
    rw [henr.registered, (henr.divided ins hins).1, Nat.pos_iff_ne_zero]
    exact and_iff_right hins

/-- Eight queues and three instances: the queues 0 to 2, 3 to 5, 6 and 7. -/
theorem queues_partitioned_three :
    ∃ infos, Polling.init 3 ⟨8, 1, 8, 8⟩ 3 = .ok infos ∧
      Partitioned ⟨8, 1, 8, 8⟩ 3 (fun ins => infos.getD ins ⟨0, 0⟩)
        fun ins => (infos.getD ins ⟨0, 0⟩).numQueues ≠ 0 := by
  obtain ⟨⟨infos, hrun, -, hpart⟩, -⟩ :=
    queues_partitioned ⟨8, 1, 8, 8⟩ 3 (by decide) (by decide) (by decide) (by decide)
  exact ⟨infos, hrun 3 (Nat.le_refl 3), hpart⟩

end Tagaspi
