import Tagaspi.Notifications.Model
import Tagaspi.Polling.Lifecycle
import Tagaspi.QueueGroups.Table

/-!
# Initialisation and termination of the library

`tagaspi_proc_init` and `tagaspi_proc_term` may be called again and again. The state
of the library is spread over static members of `HardwareInfo`, `Polling`, the
allocator and the `_env` object, each with its own `initialize` and `finalize`.

- `EnvironmentVariable.read`: how an environment variable becomes a number.
- `Polling.init`: the division of the queues among the polling instances, which
  divides by the value of an environment variable.
- `Library`, `Library.init`, `Library.finalize`: the static state.
- `cycles`: complete cycles of initialisation, use and termination.
- `reinit_restores_first_state`, `no_division_by_zero`: what a later initialisation
  restores, and when every divisor is nonzero.
-/

namespace Tagaspi

open Loops

/-! ## Environment variables (`EnvironmentVariable.hpp`) -/

structure EnvironmentVariable where
  value : Nat
  isPresent : Bool
deriving DecidableEq, Repr

/-- `isspace` in the C locale. -/
def isSpace (c : Char) : Bool :=
  c == ' ' || c == '\t' || c == '\n' || c == '\x0b' || c == '\x0c' || c == '\r'

/-- The sign that may come before the digits. -/
def splitSign : List Char → Bool × List Char
  | '-' :: rest => (true, rest)
  | '+' :: rest => (false, rest)
  | rest => (false, rest)

/-- `iss >> assignedValue` for a `uint64_t`: `none` if the stream fails. A number with a
minus sign is accepted and wraps around; one that is too large is not accepted. -/
def extract (s : List Char) : Option Nat :=
  let (negative, rest) := splitSign (s.dropWhile isSpace)
  let digits := rest.takeWhile Char.isDigit
  let n := digits.foldl (fun n c => 10 * n + (c.toNat - '0'.toNat)) 0
  if digits = [] ∨ 2 ^ 64 ≤ n then none
  else some (if negative then (2 ^ 64 - n) % 2 ^ 64 else n)

/-- The constructor, on what `getenv` returns. -/
def EnvironmentVariable.read (valueString : Option (List Char)) (defaultValue : Nat) :
    EnvironmentVariable :=
  match valueString with
  | none => ⟨defaultValue, false⟩
  | some s =>
    match extract s with
    | some v => ⟨v, true⟩
    | none => ⟨defaultValue, false⟩

/-- The variables the library reads. -/
structure Variables where
  /-- `TAGASPI_QUEUE_CHECKERS`. -/
  queueCheckers : Option (List Char)
  /-- `TAGASPI_POLLING_PERIOD`. -/
  pollingPeriod : Option (List Char)
  /-- `TAGASPI_POLLING_FREQUENCY`. -/
  pollingFrequency : Option (List Char)
deriving DecidableEq, Repr

/-- `queuePollingInstances` of `Polling::initialize`. -/
def Variables.queuePollingInstances (v : Variables) : Nat :=
  (EnvironmentVariable.read v.queueCheckers 1).value

/-- `_period` after `Polling::initialize`. -/
def Variables.period (v : Variables) (old : Nat) : Nat :=
  let periodEnvar := EnvironmentVariable.read v.pollingPeriod 0
  let frequencyEnvar := EnvironmentVariable.read v.pollingFrequency 0
  if periodEnvar.isPresent then periodEnvar.value
  else if frequencyEnvar.isPresent then frequencyEnvar.value
  else old

example : extract "  -1".toList = some (2 ^ 64 - 1) := by decide

/-! ## `Polling::initialize` -/

/-- `Polling::QueuePollingInfo`, without the address of its instance. -/
structure PollingInfo where
  firstQueue : Nat
  numQueues : Nat
deriving DecidableEq, Repr

/-- The variables of the registration loop. -/
structure Registration where
  infos : List PollingInfo
  ins : Nat
  queue : Nat

/-- The body of the loop, with the registration itself (`Polling.Lifecycle`) left out. -/
def registerInstance (cfg : Limits) (n : Nat) (s : Registration) : Except Fault Registration :=
  let numQueues := instanceQueues cfg.maxQueues n s.ins
  if 0 < numQueues then
    .ok { infos := s.infos.set s.ins ⟨s.queue, numQueues⟩
          ins := (s.ins + 1) % 2 ^ numberBits
          queue := (s.queue + numQueues) % 2 ^ cfg.queueBits }
  else
    .ok { s with
      infos := s.infos.modify s.ins fun info => { info with numQueues := numQueues }
      ins := (s.ins + 1) % 2 ^ numberBits }

/-- What `Polling::initialize` leaves in `_queuePollingInfos`, which has been cleared. The
quotient and the remainder are those that `instanceQueues` is made of. -/
def Polling.init (fuel : Nat) (cfg : Limits) (n : Nat) : Except Fault (List PollingInfo) := do
  let _qppi ← divide cfg.maxQueues n
  let _remq ← modulo cfg.maxQueues n
  let s ← whileLoop (fun s => decide (s.ins < n)) (registerInstance cfg n) fuel
    ⟨List.replicate n ⟨0, 0⟩, 0, 0⟩
  .ok s.infos

section Registration

variable {cfg : Limits} {n : Nat}

theorem registerInstance_ok (s : Registration) :
    ∃ s', registerInstance cfg n s = .ok s' ∧ s'.ins = (s.ins + 1) % 2 ^ numberBits := by
  unfold registerInstance
  by_cases hpos : 0 < instanceQueues cfg.maxQueues n s.ins
  · simp only [hpos, if_true]
    exact ⟨_, rfl, rfl⟩
  · simp only [hpos, if_false]
    exact ⟨_, rfl, rfl⟩

theorem polling_init_zero {fuel : Nat} : Polling.init fuel cfg 0 = .error .divideByZero := rfl

theorem polling_init_of_ne (hn : n ≠ 0) (fuel : Nat) :
    Polling.init fuel cfg n =
      (whileLoop (fun s => decide (s.ins < n)) (registerInstance cfg n) fuel
        ⟨List.replicate n ⟨0, 0⟩, 0, 0⟩ >>= fun s => .ok s.infos) := by
  unfold Polling.init
  rw [divide_ok hn, modulo_ok hn, ok_bind, ok_bind]

/-- The loop ends if its 32-bit counter can reach the number of instances. -/
theorem polling_init_total (cfg : Limits) (hn : n ≠ 0) (hlt : n < 2 ^ numberBits) {fuel : Nat}
    (hfuel : n ≤ fuel) :
    ∃ infos, Polling.init fuel cfg n = .ok infos := by
  have hstep : ∀ s : Registration, s.ins ≤ n → decide (s.ins < n) = true →
      ∃ s', registerInstance cfg n s = .ok s' ∧ s'.ins ≤ n ∧ n - s'.ins < n - s.ins := by
    intro s _ hc
    have hins := of_decide_eq_true hc
    obtain ⟨s', hrun, hnext⟩ := registerInstance_ok s
    rw [Nat.mod_eq_of_lt (by omega)] at hnext
    exact ⟨s', hrun, by omega, by omega⟩
  obtain ⟨s, hrun, -, -⟩ := whileLoop_total (fun s : Registration => n - s.ins) hstep
    fuel ⟨List.replicate n ⟨0, 0⟩, 0, 0⟩ (Nat.zero_le n) hfuel
  rw [polling_init_of_ne hn, hrun]
  exact ⟨_, rfl⟩

/-- Otherwise it does not end. -/
theorem polling_init_diverges (hn : 2 ^ numberBits ≤ n) (fuel : Nat) :
    Polling.init fuel cfg n = .error .outOfFuel := by
  have hpow : 0 < 2 ^ numberBits := Nat.two_pow_pos _
  have hstep : ∀ s : Registration, s.ins < 2 ^ numberBits → decide (s.ins < n) = true ∧
      ∃ s', registerInstance cfg n s = .ok s' ∧ s'.ins < 2 ^ numberBits := by
    intro s hs
    obtain ⟨s', hrun, hnext⟩ := registerInstance_ok s
    exact ⟨decide_eq_true (by omega), s', hrun, by rw [hnext]; exact Nat.mod_lt _ hpow⟩
  rw [polling_init_of_ne (by omega), whileLoop_diverges hstep fuel _ hpow, error_bind]

/-- With a nonzero number of instances no division fails. -/
theorem polling_init_safe (cfg : Limits) (hn : n ≠ 0) (fuel : Nat) :
    Polling.init fuel cfg n = .error .outOfFuel ∨ ∃ infos, Polling.init fuel cfg n = .ok infos := by
  have hstep : ∀ s : Registration, True → decide (s.ins < n) = true →
      ∃ s', registerInstance cfg n s = .ok s' ∧ True := by
    intro s _ _
    obtain ⟨s', hrun, -⟩ := registerInstance_ok s
    exact ⟨s', hrun, trivial⟩
  rw [polling_init_of_ne hn]
  obtain hout | ⟨s, hrun, -, -⟩ := whileLoop_safe hstep fuel ⟨List.replicate n ⟨0, 0⟩, 0, 0⟩ trivial
  · rw [hout]
    exact .inl rfl
  · rw [hrun]
    exact .inr ⟨_, rfl⟩

end Registration

/-! ## The static state -/

/-- A pointer, up to the address. `delete` and `free` leave it dangling. -/
inductive Pointer (α : Type) where
  | null
  | to (a : α)
  | dangling
deriving DecidableEq, Repr

/-- `pointer != nullptr`. -/
def Pointer.nonnull {α : Type} : Pointer α → Bool
  | .null => false
  | .to _ | .dangling => true

/-- The static members of `Allocator<WaitingRange>`. -/
structure Allocator where
  /-- `_objects`: the number of slots. -/
  objects : Pointer Nat
  /-- `_queue`: the free slots. -/
  queue : Pointer (List Nat)
deriving DecidableEq, Repr

namespace Allocator

/-- `Allocator::initialized`. -/
def initialized (a : Allocator) : Bool := a.objects.nonnull && a.queue.nonnull

/-- `Allocator::initialize`, whatever the members held. -/
def init : Allocator := ⟨.to numEntries, .to (List.range numEntries)⟩

/-- `Allocator::finalize`. -/
def finalize : Allocator := ⟨.dangling, .dangling⟩

end Allocator

/-- The static state of the library. -/
structure Library where
  hardware : HardwareInfo
  enabled : Bool
  maxQueues : Nat
  maxSegments : Nat
  maxQueueGroups : Nat
  numQueueGroups : Nat
  numRequests : Operation → Nat
  /-- What each segment's queue and list hold. -/
  waitingRangeQueues : Pointer (List (List Nat))
  waitingRangeLists : Pointer (List (List Nat))
  queueGroups : Pointer (List (Option QueueGroup))
  /-- Whether each lock is taken. -/
  queuePollingLocks : Pointer (List Bool)
  allocator : Allocator
  queuePollingInfos : List PollingInfo
  period : Nat

/-- What GASPI, libnuma and the environment say at every initialisation. -/
structure Platform where
  limits : Limits
  requests : Requests
  topology : Topology
  envars : Variables

namespace Library

/-- Before the first initialisation. -/
def start : Library where
  hardware := .empty
  enabled := false
  maxQueues := 0
  maxSegments := 0
  maxQueueGroups := 0
  numQueueGroups := 0
  numRequests _ := 0
  waitingRangeQueues := .null
  waitingRangeLists := .null
  queueGroups := .null
  queuePollingLocks := .null
  allocator := ⟨.null, .null⟩
  queuePollingInfos := []
  period := 100

/-- Everything `Environment::initialize` does before `Polling::initialize`, and the
members that the latter sets. -/
def initWith (sys : Platform) (lib : Library) (infos : List PollingInfo) : Library where
  hardware := HardwareInfo.init sys.topology lib.hardware
  enabled := true
  maxQueues := sys.limits.maxQueues
  maxSegments := sys.limits.maxSegments
  maxQueueGroups := Groups.maxQueueGroups
  numQueueGroups := 0
  numRequests := sys.requests.env
  waitingRangeQueues := .to (List.replicate sys.limits.maxSegments [])
  waitingRangeLists := .to (List.replicate sys.limits.maxSegments [])
  queueGroups := .to (List.replicate Groups.maxQueueGroups none)
  queuePollingLocks := .to (List.replicate sys.limits.maxQueues false)
  allocator := Allocator.init
  queuePollingInfos := infos
  period := sys.envars.period lib.period

/-- `Environment::initialize`, called by `tagaspi_proc_init`. -/
def init (fuel : Nat) (sys : Platform) (lib : Library) : Except Fault Library := do
  let infos ← Polling.init fuel sys.limits sys.envars.queuePollingInstances
  .ok (initWith sys lib infos)

/-- `Environment::finalize`, called by `tagaspi_proc_term`. -/
def finalize (lib : Library) : Library :=
  if lib.enabled then
    { lib with
      queuePollingInfos := []
      allocator := Allocator.finalize
      queuePollingLocks := .dangling
      waitingRangeQueues := .dangling
      waitingRangeLists := .dangling
      queueGroups := .dangling
      enabled := false
      hardware := HardwareInfo.finalize lib.hardware }
  else lib

/-- What the calls between initialisation and termination leave behind. -/
structure Usage where
  numQueueGroups : Nat
  waitingRangeQueues : List (List Nat)
  waitingRangeLists : List (List Nat)
  queueGroups : List (Option QueueGroup)
  queuePollingLocks : List Bool
  freeSlots : List Nat

/-- The library after it has been used. -/
def use (lib : Library) (u : Usage) : Library :=
  { lib with
    numQueueGroups := u.numQueueGroups
    waitingRangeQueues := .to u.waitingRangeQueues
    waitingRangeLists := .to u.waitingRangeLists
    queueGroups := .to u.queueGroups
    queuePollingLocks := .to u.queuePollingLocks
    allocator := { lib.allocator with queue := .to u.freeSlots } }

/-- Complete cycles of initialisation, use and termination. -/
def cycles (fuel : Nat) (sys : Platform) : List Usage → Library → Except Fault Library
  | [], lib => .ok lib
  | u :: us, lib => do
    let lib ← init fuel sys lib
    cycles fuel sys us (lib.use u).finalize

/-- The assertions about a state that is not initialised yet: in
`HardwareInfo::initialize` and in `Allocator::initialize`. -/
structure Uninitialised (lib : Library) : Prop where
  cpuToNUMANode : lib.hardware.cpuToNUMANode = []
  numaNodeAvailability : lib.hardware.numaNodeAvailability = []
  allocator : lib.allocator.initialized = false

/-! ## Initialising again -/

section Cycles

variable {fuel : Nat} {sys : Platform} {lib lib' : Library} {us : List Usage}

theorem period_period (v : Variables) (p : Nat) : v.period (v.period p) = v.period p := by
  unfold Variables.period
  by_cases h₁ : (EnvironmentVariable.read v.pollingPeriod 0).isPresent = true
  · simp [h₁]
  · by_cases h₂ : (EnvironmentVariable.read v.pollingFrequency 0).isPresent = true
    · simp [h₁, h₂]
    · simp [h₁, h₂]

theorem init_eq_ok (hi : init fuel sys lib = .ok lib') :
    ∃ infos, Polling.init fuel sys.limits sys.envars.queuePollingInstances = .ok infos ∧
      lib' = initWith sys lib infos := by
  obtain ⟨infos, hinfos, hlib⟩ := bind_eq_ok hi
  exact ⟨infos, hinfos, (Except.ok.inj hlib).symm⟩

/-- What at least one complete cycle leaves behind. -/
structure Cycled (sys : Platform) (lib : Library) : Prop where
  hardware : ∃ n, lib.hardware = { sys.topology.describe with numAvailableNUMANodes := n }
  period : lib.period = sys.envars.period 100
  allocator : lib.allocator.initialized = true

/-- The state between two cycles. -/
def Idle (sys : Platform) (lib : Library) : Prop := lib = start ∨ Cycled sys lib

/-- A cycle leaves the vectors of `HardwareInfo` filled and the pointers of the allocator
set. -/
theorem cycled_cycle {u : Usage} (hlib : Idle sys lib) (hi : init fuel sys lib = .ok lib') :
    Cycled sys (lib'.use u).finalize := by
  obtain ⟨infos, -, rfl⟩ := init_eq_ok hi
  rcases hlib with rfl | hlib
  · exact ⟨⟨_, HardwareInfo.init_empty _⟩, rfl, rfl⟩
  · obtain ⟨n, hn⟩ := hlib.hardware
    refine ⟨⟨0, ?_⟩, ?_, rfl⟩
    · show HardwareInfo.init sys.topology lib.hardware = _
      rw [hn, HardwareInfo.init_again]
    · show sys.envars.period lib.period = _
      rw [hlib.period, period_period]

theorem cycled_cycles (hlib : Cycled sys lib) (hc : cycles fuel sys us lib = .ok lib') :
    Cycled sys lib' := by
  induction us generalizing lib with
  | nil =>
    cases hc
    exact hlib
  | cons u us ih =>
    obtain ⟨mid, hmid, hrest⟩ := bind_eq_ok hc
    exact ih (cycled_cycle (.inr hlib) hmid) hrest

/-- After the first cycle the state never looks uninitialised again. -/
theorem cycles_start (hc : cycles fuel sys us start = .ok lib) :
    (us = [] ∧ lib = start) ∨ (us ≠ [] ∧ Cycled sys lib) := by
  cases us with
  | nil =>
    cases hc
    exact .inl ⟨rfl, rfl⟩
  | cons u us =>
    obtain ⟨mid, hmid, hrest⟩ := bind_eq_ok hc
    exact .inr ⟨List.cons_ne_nil _ _, cycled_cycles (cycled_cycle (.inl rfl) hmid) hrest⟩

/-- Cycles end if the polling instances can be registered. -/
theorem cycles_total (hn : sys.envars.queuePollingInstances ≠ 0)
    (hlt : sys.envars.queuePollingInstances < 2 ^ numberBits)
    (hfuel : sys.envars.queuePollingInstances ≤ fuel) (us : List Usage) (lib : Library) :
    ∃ lib', cycles fuel sys us lib = .ok lib' := by
  induction us generalizing lib with
  | nil => exact ⟨lib, rfl⟩
  | cons u us ih =>
    obtain ⟨infos, hinfos⟩ := polling_init_total sys.limits hn hlt hfuel
    obtain ⟨lib', hlib'⟩ := ih ((initWith sys lib infos).use u).finalize
    refine ⟨lib', ?_⟩
    rw [cycles, init, hinfos, ok_bind, ok_bind]
    exact hlib'

/-- The last initialisation has restored the first state, without a failing assertion. -/
structure Restored (before after first : Library) : Prop where
  state : after = first
  assertions : before.Uninitialised
  count : after.hardware.numAvailableNUMANodes = after.hardware.numaNodeAvailability.countP id
  pos : 0 < after.hardware.numAvailableNUMANodes

/-- A later initialisation restores everything except the number of NUMA nodes. -/
theorem init_cycled {infos : List PollingInfo} (hlib : Cycled sys lib) :
    initWith sys lib infos = { initWith sys start infos with
      hardware := { sys.topology.describe with numAvailableNUMANodes := 0 } } := by
  obtain ⟨n, hn⟩ := hlib.hardware
  unfold initWith
  rw [hn, HardwareInfo.init_again, hlib.period, period_period]
  rfl

end Cycles

/-- **Initialising again.** After some complete cycles, another initialisation restores the
state of the first one only if there was no cycle at all. It does return, if the first one
does. -/
theorem reinit_restores_first_state (sys : Platform) (us : List Usage) :
    (∀ fuel before after first, cycles fuel sys us start = .ok before →
      init fuel sys before = .ok after → init fuel sys start = .ok first →
      (Restored before after first ↔ us.length = 0)) ∧
    (sys.envars.queuePollingInstances ≠ 0 →
      sys.envars.queuePollingInstances < 2 ^ numberBits →
      ∃ fuel before after first, cycles fuel sys us start = .ok before ∧
        init fuel sys before = .ok after ∧ init fuel sys start = .ok first) := by
  refine ⟨?_, ?_⟩
  · intro fuel before after first hb ha hf
    obtain ⟨infos, hinfos, rfl⟩ := init_eq_ok hf
    obtain ⟨infos', hinfos', rfl⟩ := init_eq_ok ha
    rw [hinfos] at hinfos'
    cases hinfos'
    rw [List.length_eq_zero_iff]
    rcases cycles_start hb with ⟨rfl, rfl⟩ | ⟨hne, hcycled⟩
    · refine iff_of_true ⟨rfl, ⟨rfl, rfl, rfl⟩, ?_, ?_⟩ rfl
      · show (HardwareInfo.init sys.topology .empty).numAvailableNUMANodes = _
        rw [HardwareInfo.init_empty]
        show _ = (HardwareInfo.init sys.topology .empty).numaNodeAvailability.countP id
        rw [HardwareInfo.init_empty]
        exact sys.topology.sound_describe.count
      · show 0 < (HardwareInfo.init sys.topology .empty).numAvailableNUMANodes
        rw [HardwareInfo.init_empty]
        exact sys.topology.sound_describe.pos
    · refine iff_of_false (fun hr => ?_) hne
      have hpos := hr.pos
      rw [init_cycled hcycled] at hpos
      exact Nat.lt_irrefl 0 hpos
  · intro hn hlt
    obtain ⟨before, hb⟩ := cycles_total hn hlt (Nat.le_refl _) us start
    obtain ⟨infos, hinfos⟩ := polling_init_total sys.limits hn hlt (Nat.le_refl _)
    refine ⟨_, before, initWith sys before infos, initWith sys start infos, hb, ?_, ?_⟩
    · rw [init, hinfos, ok_bind]
    · rw [init, hinfos, ok_bind]

/-- Eight queues and two segments on a machine with two nodes; no variable is set. -/
def smallPlatform : Platform where
  limits := ⟨8, 2, 8, 8⟩
  requests := ⟨fun _ num => num, fun _ num => num, fun _ _ => rfl⟩
  topology := twoNodes
  envars := ⟨none, none, none⟩

/-- The calls leave no group behind, and empty tables, lists and pool. -/
def Usage.nothing : Usage := ⟨0, [], [], [], [], []⟩

theorem reinit_restores_first_state_small :
    ∃ fuel before after first, cycles fuel smallPlatform [] start = .ok before ∧
      init fuel smallPlatform before = .ok after ∧ init fuel smallPlatform start = .ok first ∧
      Restored before after first := by
  obtain ⟨hrestored, htotal⟩ := reinit_restores_first_state smallPlatform []
  obtain ⟨fuel, before, after, first, hb, ha, hf⟩ := htotal (by decide) (by decide)
  exact ⟨fuel, before, after, first, hb, ha, hf, (hrestored _ _ _ _ hb ha hf).mpr rfl⟩

/-- After one cycle, the second initialisation counts no NUMA node. -/
theorem second_init_counts_no_node :
    ∃ fuel before after first, cycles fuel smallPlatform [.nothing] start = .ok before ∧
      init fuel smallPlatform before = .ok after ∧ init fuel smallPlatform start = .ok first ∧
      after.hardware.numAvailableNUMANodes = 0 ∧ ¬ Restored before after first := by
  have hn : smallPlatform.envars.queuePollingInstances ≠ 0 := by decide
  obtain ⟨before, hb⟩ := cycles_total hn (by decide) (Nat.le_refl _) [.nothing] start
  obtain ⟨infos, hinfos⟩ := polling_init_total smallPlatform.limits (by decide) (by decide)
    (Nat.le_refl smallPlatform.envars.queuePollingInstances)
  have hcycled : Cycled smallPlatform before := by
    rcases cycles_start hb with ⟨hnil, -⟩ | ⟨-, hc⟩
    · cases hnil
    · exact hc
  have hzero : (initWith smallPlatform before infos).hardware.numAvailableNUMANodes = 0 := by
    rw [init_cycled hcycled]
  refine ⟨_, before, initWith smallPlatform before infos, initWith smallPlatform start infos, hb,
    ?_, ?_, hzero, fun hr => ?_⟩
  · rw [init, hinfos, ok_bind]
  · rw [init, hinfos, ok_bind]
  · have hpos := hr.pos
    rw [hzero] at hpos
    exact Nat.lt_irrefl 0 hpos

/-! ## Divisors -/

/-- Some complete cycles, one more initialisation, and the set-up of a group's policy in a
`tagaspi_queue_group_create` call. -/
def createRun (fuel : Nat) (sys : Platform) (us : List Usage) (garbage : Nat → QueueRange)
    (a : Groups.Args) : Except Fault GroupData := do
  let lib ← cycles fuel sys us start
  let lib ← init fuel sys lib
  setupPolicy sys.limits.queueBits fuel lib.hardware garbage a.first a.num a.policy

/-- The divisors of the set-up are nonzero: it is not after a second initialisation, and
every node that is available is reached. -/
def DivisorsOk (sys : Platform) (us : List Usage) (num : Nat) : Prop :=
  us.length = 0 ∧
  ((HardwareInfo.init sys.topology .empty).numAvailableNUMANodes ≤ num ∨
    ¬ sys.topology.nodeAvailable 0 ∨
    ∀ n, 0 < n → n < num - 1 → ¬ sys.topology.nodeAvailable n)

section Divisors

variable {fuel : Nat} {sys : Platform} {us : List Usage} {garbage : Nat → QueueRange}
  {a : Groups.Args} {lib : Library}

/-- Without polling instances the first initialisation fails. -/
theorem init_zero (hzero : sys.envars.queuePollingInstances = 0) :
    init fuel sys lib = .error .divideByZero := by
  rw [init, hzero, polling_init_zero, error_bind]

theorem createRun_zero (hzero : sys.envars.queuePollingInstances = 0) :
    createRun fuel sys us garbage a = .error .divideByZero := by
  unfold createRun
  cases us with
  | nil => rw [cycles, ok_bind, init_zero hzero, error_bind]
  | cons u us => rw [cycles, init_zero hzero, error_bind, error_bind]

/-- With too many of them it does not return. -/
theorem createRun_diverges (hn : 2 ^ numberBits ≤ sys.envars.queuePollingInstances) :
    createRun fuel sys us garbage a = .error .outOfFuel := by
  have hinit : ∀ lib, init fuel sys lib = .error .outOfFuel := fun lib => by
    rw [init, polling_init_diverges hn, error_bind]
  unfold createRun
  cases us with
  | nil => rw [cycles, ok_bind, hinit, error_bind]
  | cons u us => rw [cycles, hinit, error_bind, error_bind]

theorem cycles_safe (fuel : Nat) (hn : sys.envars.queuePollingInstances ≠ 0) (us : List Usage)
    (lib : Library) :
    cycles fuel sys us lib = .error .outOfFuel ∨ ∃ lib', cycles fuel sys us lib = .ok lib' := by
  induction us generalizing lib with
  | nil => exact .inr ⟨lib, rfl⟩
  | cons u us ih =>
    rw [cycles, init]
    obtain hout | ⟨infos, hinfos⟩ := polling_init_safe sys.limits hn fuel
    · rw [hout]
      exact .inl rfl
    · rw [hinfos, ok_bind, ok_bind]
      exact ih _

/-- The set-up in a run that gets there. -/
theorem createRun_eq {infos : List PollingInfo} (hc : cycles fuel sys us start = .ok lib)
    (hinfos : Polling.init fuel sys.limits sys.envars.queuePollingInstances = .ok infos) :
    createRun fuel sys us garbage a =
      setupPolicy sys.limits.queueBits fuel (HardwareInfo.init sys.topology lib.hardware) garbage
        a.first a.num a.policy := by
  unfold createRun
  rw [hc, ok_bind, init, hinfos, ok_bind, ok_bind]
  rfl

theorem setupPolicy_cpuRR {w first num : Nat} {h : HardwareInfo} {e : Fault} :
    setupPolicy w fuel h garbage first num .cpuRR = .error e ↔
      setupCPURoundRobinData w fuel h garbage first num (List.replicate h.getMaxCPUs 0) =
        .error e := by
  rw [setupPolicy, if_neg (fun hc => by cases hc)]
  cases setupCPURoundRobinData w fuel h garbage first num (List.replicate h.getMaxCPUs 0) with
  | ok table => exact iff_of_false (fun hc => by cases hc) (fun hc => by cases hc)
  | error e' =>
    rw [error_bind]
    exact ⟨fun hc => congrArg Except.error (Except.error.inj hc),
      fun hc => congrArg Except.error (Except.error.inj hc)⟩

/-- The divisors of the first set-up. -/
theorem setup_first_safe (hpos : 0 < a.num) (hnum : a.num < 2 ^ numberBits)
    (hfits : a.first + a.num ≤ 2 ^ sys.limits.queueBits) (hok : DivisorsOk sys [] a.num) :
    setupCPURoundRobinData sys.limits.queueBits fuel sys.topology.describe garbage a.first a.num
      (List.replicate sys.topology.describe.getMaxCPUs 0) ≠ .error .divideByZero := by
  have hs := sys.topology.sound_describe
  obtain ⟨-, hok⟩ := hok
  rw [HardwareInfo.init_empty] at hok
  by_cases henough : sys.topology.describe.numAvailableNUMANodes ≤ a.num
  · obtain ⟨table, hrun, -⟩ := setup_distinct fuel garbage hs List.length_replicate henough hfits
    rw [hrun]
    exact fun hc => by cases hc
  · refine setup_shared_safe hs List.length_replicate hpos hnum (by omega) fun _ h0 n hsk => ?_
    rcases hok with hc | hc | hc
    · exact henough hc
    · exact hc (Topology.isNode_describe.mp h0)
    · exact hc n hsk.2.1 hsk.2.2 (Topology.isNode_describe.mp hsk.1)

/-- If a node is left out, its divisor can be zero. -/
theorem setup_first_fault (hpos : 0 < a.num) (hnum : a.num < 2 ^ numberBits)
    (hfuel : a.num - 1 ≤ fuel) (hbad : ¬ DivisorsOk sys [] a.num) :
    setupCPURoundRobinData sys.limits.queueBits fuel sys.topology.describe (fun _ => ⟨0, 0⟩) a.first
      a.num (List.replicate sys.topology.describe.getMaxCPUs 0) = .error .divideByZero := by
  unfold DivisorsOk at hbad
  rw [HardwareInfo.init_empty] at hbad
  push Not at hbad
  obtain ⟨hfew, h0, n, hn, hlt, hav⟩ := hbad rfl
  exact setup_shared_fault sys.topology.sound_describe List.length_replicate hpos hnum hfew
    (fun _ => Topology.isNode_describe.mpr h0) hfuel ⟨Topology.isNode_describe.mpr hav, hn, hlt⟩ rfl

end Divisors

/-- **When no divisor is zero**, whatever the stack holds: the number of polling instances
is not zero and, if `Polling::initialize` returns at all, a `CPU_RR` group is created after
the first initialisation only and leaves no available node out. -/
theorem no_division_by_zero (sys : Platform) (us : List Usage) (a : Groups.Args)
    (hcfg : sys.limits.Representable) (hpos : 0 < a.num)
    (hfits : a.first + a.num ≤ sys.limits.maxQueues) (hpolicy : a.policy.isValidPolicy = true) :
    (∀ fuel garbage, createRun fuel sys us garbage a ≠ .error .divideByZero) ↔
      sys.envars.queuePollingInstances ≠ 0 ∧
      (sys.envars.queuePollingInstances < 2 ^ numberBits → a.policy = .cpuRR →
        DivisorsOk sys us a.num) := by
  have hbits := hcfg.maxQueues_le
  have hmax := hcfg.maxQueues_lt
  have hfirst : HardwareInfo.init sys.topology start.hardware = sys.topology.describe :=
    HardwareInfo.init_empty _
  constructor
  · intro hsafe
    have hn : sys.envars.queuePollingInstances ≠ 0 := fun hzero =>
      hsafe 0 (fun _ => ⟨0, 0⟩) (createRun_zero hzero)
    refine ⟨hn, fun hlt hrr => ?_⟩
    by_contra hbad
    -- enough fuel for the registrations and for the set-up
    obtain ⟨lib, hlib⟩ := cycles_total hn hlt (Nat.le_add_right _ a.num) us start
    obtain ⟨infos, hinfos⟩ := polling_init_total sys.limits hn hlt (Nat.le_add_right _ a.num)
    refine hsafe (sys.envars.queuePollingInstances + a.num) (fun _ => ⟨0, 0⟩) ?_
    rw [createRun_eq hlib hinfos, hrr]
    refine setupPolicy_cpuRR.mpr ?_
    rcases cycles_start hlib with ⟨rfl, rfl⟩ | ⟨-, hcycled⟩
    · rw [hfirst]
      refine setup_first_fault hpos (by omega) ?_ hbad
      omega
    · obtain ⟨n, hn⟩ := hcycled.hardware
      rw [hn, HardwareInfo.init_again]
      exact setup_no_nodes rfl
  · rintro ⟨hn, hok⟩ fuel garbage
    by_cases hlt : sys.envars.queuePollingInstances < 2 ^ numberBits
    · obtain hout | ⟨lib, hlib⟩ := cycles_safe fuel hn us start
      · rw [createRun, hout]
        exact fun hc => by cases hc
      obtain hout | ⟨infos, hinfos⟩ := polling_init_safe sys.limits hn fuel
      · rw [createRun, hlib, ok_bind, init, hout]
        exact fun hc => by cases hc
      rw [createRun_eq hlib hinfos]
      cases hp : a.policy with
      | default =>
        rw [setupPolicy, if_pos rfl]
        exact fun hc => by cases hc
      | unknown v =>
        rw [hp] at hpolicy
        cases hpolicy
      | cpuRR =>
        have hd := hok hlt hp
        have hnil : us = [] := List.length_eq_zero_iff.mp hd.1
        subst hnil
        cases hlib
        rw [hfirst]
        exact fun hc => setup_first_safe hpos (by omega) (by omega) hd (setupPolicy_cpuRR.mp hc)
    · rw [createRun_diverges (Nat.le_of_not_lt hlt)]
      exact fun hc => by cases hc

theorem no_division_by_zero_small :
    smallPlatform.limits.Representable ∧
    ∀ fuel garbage,
      createRun fuel smallPlatform [] garbage ⟨2, 3, .cpuRR⟩ ≠ .error .divideByZero := by
  have hcfg : smallPlatform.limits.Representable := ⟨by decide, by decide⟩
  refine ⟨hcfg, (no_division_by_zero smallPlatform [] ⟨2, 3, .cpuRR⟩ hcfg (by decide) (by decide)
    rfl).mpr ⟨by decide, fun _ _ => ⟨rfl, .inl (by decide)⟩⟩⟩

/-- With `TAGASPI_QUEUE_CHECKERS` set to 0 the first initialisation divides by zero. -/
theorem zero_checkers_divide_by_zero :
    createRun 0 { smallPlatform with envars := ⟨some ['0'], none, none⟩ } [] (fun _ => ⟨0, 0⟩)
      ⟨2, 3, .default⟩ = .error .divideByZero :=
  createRun_zero (by decide)

end Library

end Tagaspi
