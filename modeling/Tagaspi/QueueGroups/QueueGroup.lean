import Tagaspi.Gaspi
import Tagaspi.HardwareInfo
import Tagaspi.Lib.Loops

/-!
# Queue groups (`QueueGroup.hpp`)

A queue group hands out the queues `first, …, first + num - 1`, either in turn
(the default policy) or by the CPU of the caller (`CPU_RR`). Under `CPU_RR` a
table with one queue per CPU is computed when the group is created.

- `setupCPURoundRobinData`: the computation, in three passes over an array on the
  stack that is not initialised. If there are at least as many queues as available
  NUMA nodes, every node gets a range of its own (`distinctRanges`), otherwise the
  nodes share (`sharedQueues`). Then the CPUs of each node go round its range
  (`assignCPUs`).
- `setupPolicy`, `QueueGroup`: the group with its counter or its table. `getQueue` is
  in `QueueGroups.Table`, cut into its atomic accesses.
-/

namespace Tagaspi

open Loops

/-- `gaspi_queue_group_policy_t`. A C enumeration can hold other values. -/
inductive Policy where
  | default
  | cpuRR
  | unknown (value : Nat)
deriving DecidableEq, Repr

/-- `QueueGroup::isValidPolicy`. -/
def Policy.isValidPolicy : Policy → Bool
  | .default => true
  | .cpuRR => true
  | .unknown _ => false

/-- `QueueGroup::QueueRange`. -/
structure QueueRange where
  first : Nat
  num : Nat
deriving DecidableEq, Repr, Inhabited

section Setup

-- The width of `gaspi_queue_id_t`. It is at most that of `gaspi_number_t`, so that the
-- sums below are truncated once.
variable (queueBits : Nat)

/-! ## More queues than nodes -/

/-- The ranges given so far, and the next queue. -/
structure Split where
  numaQueues : Nat → QueueRange
  queue : Nat

/-- `numaQueues[numa].num`. The sum is at most `_numQueues`. -/
def nodeQueues (queuesPerNUMA remainingQueues numa : Nat) : Nat :=
  queuesPerNUMA + if numa < remainingQueues then 1 else 0

/-- The body of the first loop. -/
def giveRange (h : HardwareInfo) (queuesPerNUMA remainingQueues numa : Nat) (s : Split) :
    Except Fault Split := do
  let available ← fetch h.numaNodeAvailability numa
  if available then
    let num := nodeQueues queuesPerNUMA remainingQueues numa
    .ok { numaQueues := Function.update s.numaQueues numa ⟨s.queue, num⟩
          queue := (s.queue + num) % 2 ^ queueBits }
  else .ok s

def distinctRanges (h : HardwareInfo) (queuesPerNUMA remainingQueues firstQueue : Nat)
    (numaQueues : Nat → QueueRange) : Except Fault (Nat → QueueRange) := do
  let s ← forRange 0 h.getMaxNUMANodes (giveRange queueBits h queuesPerNUMA remainingQueues)
    ⟨numaQueues, firstQueue⟩
  .ok s.numaQueues

/-! ## Fewer queues than nodes -/

/-- The variables of the `while` loop. -/
structure Share where
  numaQueues : Nat → QueueRange
  numAssigned : Nat
  numa : Nat

/-- The body of the `while` loop. It leaves `numa` as it is. -/
def giveOne (h : HardwareInfo) (s : Share) : Except Fault Share := do
  let available ← fetch h.numaNodeAvailability s.numa
  if available then
    .ok { s with
      numaQueues := Function.update s.numaQueues s.numa ⟨s.numAssigned % 2 ^ queueBits, 1⟩
      numAssigned := s.numAssigned + 1 }
  else .ok s

/-- The body of the loop after it. -/
def giveLast (h : HardwareInfo) (remainingQueues numa : Nat) (numaQueues : Nat → QueueRange) :
    Except Fault (Nat → QueueRange) := do
  let available ← fetch h.numaNodeAvailability numa
  if available then
    .ok (Function.update numaQueues numa ⟨predSize remainingQueues % 2 ^ queueBits, 1⟩)
  else .ok numaQueues

def sharedQueues (fuel : Nat) (h : HardwareInfo) (remainingQueues : Nat)
    (numaQueues : Nat → QueueRange) : Except Fault (Nat → QueueRange) := do
  let s ← whileLoop (fun s => decide (s.numAssigned < predSize remainingQueues))
    (giveOne queueBits h) fuel ⟨numaQueues, 0, 0⟩
  forRange (predSize remainingQueues) h.getMaxNUMANodes (giveLast queueBits h remainingQueues)
    s.numaQueues

/-! ## The table -/

/-- The table under construction and the position in the node's range. -/
structure Pass where
  assignationQueue : List Nat
  offset : Nat

/-- The inner body. `offset` is below `range.num`, so that `offset + 1` does not wrap. -/
def assignCPU (h : HardwareInfo) (range : QueueRange) (numa cpu : Nat) (p : Pass) :
    Except Fault Pass := do
  let node ← fetch h.cpuToNUMANode cpu
  if node = (numa : Int) then
    let offset ← modulo (p.offset + 1) range.num
    .ok { assignationQueue :=
            p.assignationQueue.set cpu ((range.first + p.offset) % 2 ^ queueBits)
          offset := offset }
  else .ok p

/-- The outer body. -/
def assignNode (h : HardwareInfo) (numaQueues : Nat → QueueRange) (numa : Nat)
    (assignationQueue : List Nat) : Except Fault (List Nat) := do
  let available ← fetch h.numaNodeAvailability numa
  if available then
    let p ← forRange 0 h.getMaxCPUs (assignCPU queueBits h (numaQueues numa) numa)
      ⟨assignationQueue, 0⟩
    .ok p.assignationQueue
  else .ok assignationQueue

def assignCPUs (h : HardwareInfo) (numaQueues : Nat → QueueRange)
    (assignationQueue : List Nat) : Except Fault (List Nat) :=
  forRange 0 h.getMaxNUMANodes (assignNode queueBits h numaQueues) assignationQueue

/-- The branch on the number of queues: what the array holds before the CPU passes. -/
def nodeRanges (fuel : Nat) (h : HardwareInfo) (garbage : Nat → QueueRange)
    (firstQueue numQueues queuesPerNUMA remainingQueues : Nat) :
    Except Fault (Nat → QueueRange) :=
  if h.numAvailableNUMANodes ≤ numQueues then
    distinctRanges queueBits h queuesPerNUMA remainingQueues firstQueue garbage
  else sharedQueues queueBits fuel h remainingQueues garbage

/-- `QueueGroup::setupCPURoundRobinData`. `garbage` is what the array on the stack holds
before it is written, `fuel` cuts off the `while` loop. -/
def setupCPURoundRobinData (fuel : Nat) (h : HardwareInfo) (garbage : Nat → QueueRange)
    (firstQueue numQueues : Nat) (assignationQueue : List Nat) : Except Fault (List Nat) := do
  let queuesPerNUMA ← divide numQueues h.numAvailableNUMANodes
  let remainingQueues ← modulo numQueues h.numAvailableNUMANodes
  let numaQueues ← nodeRanges queueBits fuel h garbage firstQueue numQueues queuesPerNUMA
    remainingQueues
  assignCPUs queueBits h numaQueues assignationQueue

/-! ## The group -/

/-- What `_data` points to. -/
inductive GroupData where
  /-- The atomic counter of the default policy. -/
  | counter (value : Nat)
  /-- The queue of each CPU. -/
  | queues (table : List Nat)
deriving DecidableEq, Repr

/-- `QueueGroup::setupPolicy`: what it leaves in `_data`. -/
def setupPolicy (fuel : Nat) (h : HardwareInfo) (garbage : Nat → QueueRange)
    (firstQueue numQueues : Nat) (policy : Policy) : Except Fault GroupData :=
  if policy = .default then .ok (.counter 0)
  else do
    let table ← setupCPURoundRobinData queueBits fuel h garbage firstQueue numQueues
      (List.replicate h.getMaxCPUs 0)
    .ok (.queues table)

end Setup

structure QueueGroup where
  firstQueue : Nat
  numQueues : Nat
  policy : Policy
  data : GroupData
deriving DecidableEq, Repr

/-- The counter value that `getQueue` tries to store after it has loaded `offset`. -/
def QueueGroup.nextOffset (g : QueueGroup) (offset : Nat) : Nat :=
  if offset < g.numQueues - 1 then offset + 1 else 0

theorem QueueGroup.nextOffset_lt {g : QueueGroup} (hpos : 0 < g.numQueues) (offset : Nat) :
    g.nextOffset offset < g.numQueues := by
  unfold QueueGroup.nextOffset
  by_cases hlt : offset < g.numQueues - 1
  · rw [if_pos hlt]
    omega
  · rw [if_neg hlt]
    exact hpos

end Tagaspi
