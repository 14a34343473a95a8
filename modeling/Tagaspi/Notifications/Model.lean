import Tagaspi.Lib.Lts
import Tagaspi.WaitingRange

/-!
# Waiting for notifications: the whole machine

Everything that takes part in `tagaspi_notify_async_wait` and
`tagaspi_notify_async_waitall`: the calling tasks (`NotifyAsyncWait.cpp`), the
pool of waiting ranges (`Allocator.hpp`), one queue and one list of ranges per
segment (`WaitingRangeQueue.hpp`, `WaitingRangeList.hpp`) and the notifications
poller (`Polling::pollNotifications`), over the notifications GASPI keeps for
each segment.

Any number of tasks and the one poller run concurrently. A step is one GASPI
call together with the local code that follows it, one ALPI call, or the move of
one range from one container to the next. A GASPI error code other than
`GASPI_TIMEOUT` makes the process abort, so no step leads out of it.

Pool slots are numbered `0, 1, …`; the pool hands out pointers, so the
containers hold slot numbers and the objects themselves live in `objects`, where
a recycled slot keeps its old contents until the constructor overwrites them.
-/

namespace Tagaspi

open Lts

/-- `Allocator::NumEntries`. -/
def numEntries : Nat := 64 * 1000

/-- `WR_QUEUE_CAPACITY`. -/
def wrQueueCapacity : Nat := 63 * 1024

/-- Who runs a check. -/
inductive Agent (T : Type) where
  | task (t : T)
  | poller
deriving DecidableEq, Repr

/-- A wait call of a task, at the point it has reached. -/
inductive Call where
  /-- No wait call in progress. -/
  | idle
  /-- In the initial check. -/
  | checking (c : Check)
  /-- Something is missing: about to call `increaseCurrentTaskEvents(task, 1)`. -/
  | increase (w : Wait) (remaining : Nat)
  /-- About to allocate a `WaitingRange`. -/
  | allocate (w : Wait) (remaining : Nat)
  /-- Holding the allocated range, about to enqueue it on this segment. -/
  | enqueue (segment slot : Nat)
deriving DecidableEq, Repr

/-- The point `pollNotifications` has reached. -/
inductive PollPc where
  /-- Between two calls. -/
  | idle
  /-- At the test of the loop over segments. -/
  | segment
  /-- In `dequeueAll`, with this many ranges left to move. -/
  | dequeue (left : Nat)
  /-- In `WaitingRangeList::checkNotifications`, with the iterator at `pos`. -/
  | scan (pos : Nat)
  /-- Checking the range in `slot`, the one the iterator at `pos` refers to. -/
  | checking (pos slot : Nat) (c : Check)
  /-- At the head of the loop over `completeRanges`. -/
  | completing
  /-- `complete()` was called on the first range left in `completeRanges`. -/
  | freeing
deriving DecidableEq, Repr

/-- The notifications poller; `completeRanges` is the part of the vector that is
not yet freed. -/
structure Poller where
  pc : PollPc
  seg : Nat
  completeRanges : List Nat
deriving DecidableEq, Repr

structure State (T : Type) where
  /-- The notification values GASPI holds, by segment and id; 0 is none. -/
  notifications : Nat × Nat → Nat
  /-- The user's memory. -/
  memory : Nat → Nat
  calls : T → Call
  /-- `Allocator::_queue`. -/
  freeSlots : List Nat
  /-- `Allocator::_objects`. -/
  objects : Nat → WaitingRange T
  /-- `_env.waitingRangeQueues`. -/
  queues : Nat → List Nat
  /-- `_env.waitingRangeLists`. -/
  lists : Nat → List Nat
  poller : Poller
  /-- The identity of the next wait operation. -/
  nextOp : Nat

/-- What the steps of the machine report. -/
inductive Event (T : Type) where
  /-- A remote notification arrives. -/
  | arrive (segment id value : Nat)
  /-- Task `t` calls a wait operation. -/
  | start (t : T) (w : Wait)
  /-- A check for `w` finds nothing: `gaspi_notify_waitsome` times out. -/
  | timeout (a : Agent T) (w : Wait)
  /-- `gaspi_notify_reset(id)`, executed for `w`, returns `value`. -/
  | reset (a : Agent T) (w : Wait) (id value : Nat)
  /-- `value` is stored in entry `index` of the user's buffer of `w`. -/
  | write (w : Wait) (index value : Nat)
  /-- The call returns with nothing remaining. -/
  | returned (w : Wait)
  /-- `increaseCurrentTaskEvents(t, 1)`. -/
  | increase (t : T)
  /-- A pool slot is taken for `w`. -/
  | allocate (slot : Nat) (w : Wait)
  /-- `complete()` on the range of `w` in `slot`: `decreaseTaskEvents(t, 1)`. -/
  | complete (slot : Nat) (w : Wait) (t : T)
  /-- The slot goes back to the pool. -/
  | free (slot : Nat)
deriving DecidableEq

namespace State

section Code

variable {T : Type} [DecidableEq T]

/-- The running check of an agent. -/
def check (s : State T) : Agent T → Option Check
  | .task t =>
    match s.calls t with
    | .checking c => some c
    | _ => none
  | .poller =>
    match s.poller.pc with
    | .checking _ _ c => some c
    | _ => none

/-- Replace the running check of an agent. -/
def setCheck (s : State T) (a : Agent T) (c : Check) : State T :=
  match a with
  | .task t => { s with calls := Function.update s.calls t (.checking c) }
  | .poller =>
    match s.poller.pc with
    | .checking pos slot _ => { s with poller := { s.poller with pc := .checking pos slot c } }
    | _ => s

/-- The state of task `t`'s call. -/
def setCall (s : State T) (t : T) (c : Call) : State T :=
  { s with calls := Function.update s.calls t c }

def setPc (s : State T) (pc : PollPc) : State T :=
  { s with poller := { s.poller with pc } }

/-- A wait operation with a fresh identity. -/
def newWait (s : State T) (segment firstId numIds : Nat) (values : Option Nat) : Wait :=
  ⟨s.nextOp, segment, firstId, numIds, values⟩

/-- Store a value through a routine's pointer. -/
def store (s : State T) (target : Target) (index value : Nat) : State T :=
  match target with
  | .ignore => s
  | .user a => { s with memory := Function.update s.memory (a + index) value }
  | .member x =>
    { s with
      objects := Function.update s.objects x { s.objects x with notifiedValue := value } }

/-- Store what `gaspi_notify_reset` returned, if it is a notification. -/
def storeNotification (s : State T) (c : Check) (id value : Nat) : State T :=
  if value ≠ 0 then s.store c.target (c.index id) value else s

/-- `gaspi_notify_reset` on the id's value: it is taken and cleared. -/
def takeNotification (s : State T) (segment id : Nat) : State T :=
  { s with notifications := Function.update s.notifications (segment, id) 0 }

/-- `Allocator::allocate` after the pop: the constructor runs in the slot. Every
member is set but `_notifiedValue`. -/
def construct (s : State T) (x : Nat) (w : Wait) (remaining : Nat) (t : T) : State T :=
  { s with
    objects := Function.update s.objects x
      { toWait := w, notifiedValue := (s.objects x).notifiedValue, remaining, task := t } }

/-- `Allocator::free`: the push fails when the free queue is full. -/
def free (s : State T) (x : Nat) : State T :=
  if s.freeSlots.length < numEntries then { s with freeSlots := s.freeSlots ++ [x] } else s

/-- `WaitingRange::checkNotifications`: which routine runs on the range in slot
`x`, and with which pointer. -/
def beginCheck (s : State T) (x : Nat) : Check :=
  let r := s.objects x
  if r.numIds = 1 then
    { wait := r.toWait, routine := .one, target := .member x, remaining := 1, pc := .waitsome }
  else
    { wait := r.toWait, routine := .many, target := .ofPointer r.notifiedValues,
      remaining := r.remaining, pc := .waitsome }

/-- `_remaining = …` in `WaitingRange::checkNotifications`. -/
def setRemaining (s : State T) (x remaining : Nat) : State T :=
  { s with objects := Function.update s.objects x { s.objects x with remaining } }

/-- The end of `WaitingRange::checkNotifications`: the one-id branch copies the
member `_notifiedValue` to the user's buffer, whatever the check found. -/
def copyBack (s : State T) (x : Nat) : State T :=
  if (s.objects x).numIds = 1 then
    s.store (.ofPointer (s.objects x).notifiedValues) 0 (s.objects x).notifiedValue
  else s

/-- `WaitingRangeList::checkNotifications` after the check of the range at `pos`:
a complete range is moved to `completeRanges`, otherwise the iterator advances. -/
def advance (s : State T) (pos x remaining : Nat) : State T :=
  if remaining = 0 then
    { s with
      lists := Function.update s.lists s.poller.seg ((s.lists s.poller.seg).eraseIdx pos)
      poller := { s.poller with
        pc := .scan pos, completeRanges := s.poller.completeRanges ++ [x] } }
  else s.setPc (.scan (pos + 1))

end Code

/-! ### What the pieces leave unchanged

`store` and its users touch the user's memory and the member `notifiedValue` only;
`setCheck` touches the running check only. -/

section Frames

variable {T : Type} (s : State T)

@[simp] theorem store_calls (g : Target) (i v : Nat) : (s.store g i v).calls = s.calls := by
  cases g <;> rfl

@[simp] theorem store_freeSlots (g : Target) (i v : Nat) :
    (s.store g i v).freeSlots = s.freeSlots := by cases g <;> rfl

@[simp] theorem store_queues (g : Target) (i v : Nat) : (s.store g i v).queues = s.queues := by
  cases g <;> rfl

@[simp] theorem store_lists (g : Target) (i v : Nat) : (s.store g i v).lists = s.lists := by
  cases g <;> rfl

@[simp] theorem store_poller (g : Target) (i v : Nat) : (s.store g i v).poller = s.poller := by
  cases g <;> rfl

@[simp] theorem store_nextOp (g : Target) (i v : Nat) : (s.store g i v).nextOp = s.nextOp := by
  cases g <;> rfl

@[simp] theorem store_notifications (g : Target) (i v : Nat) :
    (s.store g i v).notifications = s.notifications := by cases g <;> rfl

@[simp] theorem store_toWait (g : Target) (i v y : Nat) :
    ((s.store g i v).objects y).toWait = (s.objects y).toWait := by
  cases g with
  | member x => by_cases h : y = x <;> simp [store, h]
  | _ => rfl

@[simp] theorem store_remaining (g : Target) (i v y : Nat) :
    ((s.store g i v).objects y).remaining = (s.objects y).remaining := by
  cases g with
  | member x => by_cases h : y = x <;> simp [store, h]
  | _ => rfl

@[simp] theorem store_task (g : Target) (i v y : Nat) :
    ((s.store g i v).objects y).task = (s.objects y).task := by
  cases g with
  | member x => by_cases h : y = x <;> simp [store, h]
  | _ => rfl

/-- Storing a notification is a `store` or nothing. -/
theorem storeNotification_cases (c : Check) (id v : Nat) :
    s.storeNotification c id v = s ∨
      s.storeNotification c id v = s.store c.target (c.index id) v := by
  unfold storeNotification
  by_cases h : v ≠ 0
  · exact Or.inr (if_pos h)
  · exact Or.inl (if_neg h)

/-- Copying back is a `store` or nothing. -/
theorem copyBack_cases (x : Nat) :
    s.copyBack x = s ∨ ∃ g v, s.copyBack x = s.store g 0 v := by
  unfold copyBack
  by_cases h : (s.objects x).numIds = 1
  · exact Or.inr ⟨_, _, if_pos h⟩
  · exact Or.inl (if_neg h)

@[simp] theorem copyBack_calls (x : Nat) : (s.copyBack x).calls = s.calls := by
  rcases s.copyBack_cases x with h | ⟨g, v, h⟩ <;> simp [h]

@[simp] theorem copyBack_notifications (x : Nat) :
    (s.copyBack x).notifications = s.notifications := by
  rcases s.copyBack_cases x with h | ⟨g, v, h⟩ <;> simp [h]

@[simp] theorem copyBack_nextOp (x : Nat) : (s.copyBack x).nextOp = s.nextOp := by
  rcases s.copyBack_cases x with h | ⟨g, v, h⟩ <;> simp [h]

@[simp] theorem setRemaining_notifications (x r : Nat) :
    (s.setRemaining x r).notifications = s.notifications := rfl

@[simp] theorem setRemaining_nextOp (x r : Nat) : (s.setRemaining x r).nextOp = s.nextOp := rfl

@[simp] theorem advance_notifications (pos x r : Nat) :
    (s.advance pos x r).notifications = s.notifications := by
  unfold advance
  by_cases h : r = 0 <;> simp [h, setPc]

@[simp] theorem advance_nextOp (pos x r : Nat) : (s.advance pos x r).nextOp = s.nextOp := by
  unfold advance
  by_cases h : r = 0 <;> simp [h, setPc]

@[simp] theorem free_notifications (x : Nat) : (s.free x).notifications = s.notifications := by
  unfold free
  by_cases h : s.freeSlots.length < numEntries <;> simp [h]

@[simp] theorem free_calls (x : Nat) : (s.free x).calls = s.calls := by
  unfold free
  by_cases h : s.freeSlots.length < numEntries <;> simp [h]

@[simp] theorem free_objects (x : Nat) : (s.free x).objects = s.objects := by
  unfold free
  by_cases h : s.freeSlots.length < numEntries <;> simp [h]

@[simp] theorem free_memory (x : Nat) : (s.free x).memory = s.memory := by
  unfold free
  by_cases h : s.freeSlots.length < numEntries <;> simp [h]

@[simp] theorem advance_memory (pos x r : Nat) : (s.advance pos x r).memory = s.memory := by
  unfold advance
  by_cases h : r = 0 <;> simp [h, setPc]

@[simp] theorem advance_calls (pos x r : Nat) : (s.advance pos x r).calls = s.calls := by
  unfold advance
  by_cases h : r = 0 <;> simp [h, setPc]

@[simp] theorem advance_objects (pos x r : Nat) : (s.advance pos x r).objects = s.objects := by
  unfold advance
  by_cases h : r = 0 <;> simp [h, setPc]

variable [DecidableEq T]

@[simp] theorem setCall_self (t : T) (c : Call) : (s.setCall t c).calls t = c :=
  Function.update_self ..

theorem setCall_of_ne {t t' : T} (h : t' ≠ t) (c : Call) : (s.setCall t c).calls t' = s.calls t' :=
  Function.update_of_ne h ..

@[simp] theorem setCheck_task (t : T) (c : Check) :
    (s.setCheck (.task t) c).calls t = .checking c := Function.update_self ..

@[simp] theorem setCheck_poller_calls (c : Check) : (s.setCheck .poller c).calls = s.calls := by
  unfold setCheck
  cases s.poller.pc <;> rfl

@[simp] theorem setCheck_freeSlots (a : Agent T) (c : Check) :
    (s.setCheck a c).freeSlots = s.freeSlots := by
  unfold setCheck
  cases a with
  | task t => rfl
  | poller => cases s.poller.pc <;> rfl

@[simp] theorem setCheck_objects (a : Agent T) (c : Check) :
    (s.setCheck a c).objects = s.objects := by
  unfold setCheck
  cases a with
  | task t => rfl
  | poller => cases s.poller.pc <;> rfl

@[simp] theorem setCheck_nextOp (a : Agent T) (c : Check) :
    (s.setCheck a c).nextOp = s.nextOp := by
  unfold setCheck
  cases a with
  | task t => rfl
  | poller => cases s.poller.pc <;> rfl

@[simp] theorem setCheck_notifications (a : Agent T) (c : Check) :
    (s.setCheck a c).notifications = s.notifications := by
  unfold setCheck
  cases a with
  | task t => rfl
  | poller => cases s.poller.pc <;> rfl

@[simp] theorem setCheck_memory (a : Agent T) (c : Check) :
    (s.setCheck a c).memory = s.memory := by
  unfold setCheck
  cases a with
  | task t => rfl
  | poller => cases s.poller.pc <;> rfl

@[simp] theorem setCheck_completeRanges (a : Agent T) (c : Check) :
    (s.setCheck a c).poller.completeRanges = s.poller.completeRanges := by
  unfold setCheck
  cases a with
  | task t => rfl
  | poller => cases s.poller.pc <;> rfl

end Frames

end State

/-- The user-visible effect of storing a notification. -/
def Check.writes {T : Type} (c : Check) (id value : Nat) : List (Event T) :=
  match c.target with
  | .user _ => if value ≠ 0 then [.write c.wait (c.index id) value] else []
  | _ => []

/-- The user-visible effect of `copyBack`. -/
def State.copyBackEvents {T : Type} (s : State T) (x : Nat) : List (Event T) :=
  if (s.objects x).numIds = 1 ∧ (s.objects x).notifiedValues ≠ none then
    [.write (s.objects x).toWait 0 (s.objects x).notifiedValue]
  else []

/-- One atomic step of the machine. -/
inductive Step {T : Type} [DecidableEq T] (cfg : Limits) :
    State T → List (Event T) → State T → Prop where
  /-- A remote rank notifies an id. -/
  | arrive {s : State T} (segment id value : Nat) :
      value ≠ 0 →
      Step cfg s [.arrive segment id value]
        { s with notifications := Function.update s.notifications (segment, id) value }
  -- the calls
  | notifyAsyncWait {s : State T} (t : T) (segment id : Nat) (values : Option Nat) :
      s.calls t = .idle → segment < cfg.maxSegments →
      Step cfg s [.start t (s.newWait segment id 1 values)]
        { s.setCall t (.checking (.notifyAsyncWait (s.newWait segment id 1 values))) with
          nextOp := s.nextOp + 1 }
  | notifyAsyncWaitall {s : State T} (t : T) (segment first num : Nat) (values : Option Nat) :
      s.calls t = .idle → segment < cfg.maxSegments → 0 < num → num < 2 ^ numberBits →
      Step cfg s [.start t (s.newWait segment first num values)]
        { s.setCall t (.checking (.notifyAsyncWaitall (s.newWait segment first num values))) with
          nextOp := s.nextOp + 1 }
  /-- With `num = 0` the call returns at once. -/
  | notifyAsyncWaitallNone {s : State T} (t : T) :
      s.calls t = .idle → Step cfg s [] s
  -- the checks, by a task or by the poller
  | timeout {s : State T} {a : Agent T} {c : Check} :
      s.check a = some c → c.pc = .waitsome →
      (∀ id, c.wait.covers id → s.notifications (c.wait.segment, id) = 0) →
      Step cfg s [.timeout a c.wait] (s.setCheck a c.afterTimeout)
  | waitsome {s : State T} {a : Agent T} {c : Check} (id : Nat) :
      s.check a = some c → c.pc = .waitsome →
      c.wait.covers id → s.notifications (c.wait.segment, id) ≠ 0 →
      Step cfg s [] (s.setCheck a (c.afterWaitsome id))
  | reset {s : State T} {a : Agent T} {c : Check} {id value : Nat} :
      s.check a = some c → c.pc = .reset id → s.notifications (c.wait.segment, id) = value →
      Step cfg s (.reset a c.wait id value :: c.writes id value)
        (((s.takeNotification c.wait.segment id).storeNotification c id value).setCheck a
          (c.afterReset value))
  -- the rest of a call
  | callReturn {s : State T} {t : T} {c : Check} :
      s.calls t = .checking c → c.pc = .returned → c.remaining = 0 →
      Step cfg s [.returned c.wait] (s.setCall t .idle)
  | callMissing {s : State T} {t : T} {c : Check} :
      s.calls t = .checking c → c.pc = .returned → c.remaining ≠ 0 →
      Step cfg s [] (s.setCall t (.increase c.wait c.remaining))
  | callIncrease {s : State T} {t : T} {w : Wait} {r : Nat} :
      s.calls t = .increase w r → Step cfg s [.increase t] (s.setCall t (.allocate w r))
  | callAllocate {s : State T} {t : T} {w : Wait} {r x : Nat} {rest : List Nat} :
      s.calls t = .allocate w r → s.freeSlots = x :: rest →
      Step cfg s [.allocate x w]
        { (s.construct x w r t).setCall t (.enqueue w.segment x) with freeSlots := rest }
  | callEnqueue {s : State T} {t : T} {segment x : Nat} :
      s.calls t = .enqueue segment x → (s.queues segment).length < wrQueueCapacity →
      Step cfg s []
        { s.setCall t .idle with
          queues := Function.update s.queues segment (s.queues segment ++ [x]) }
  -- the poller
  | pollStart {s : State T} :
      s.poller.pc = .idle → Step cfg s [] { s with poller := ⟨.segment, 0, []⟩ }
  | pollSegment {s : State T} :
      s.poller.pc = .segment → s.poller.seg < cfg.maxSegments →
      Step cfg s [] (s.setPc (.dequeue (s.queues s.poller.seg).length))
  | pollEnd {s : State T} :
      s.poller.pc = .segment → ¬ s.poller.seg < cfg.maxSegments → Step cfg s [] (s.setPc .idle)
  | pollDequeue {s : State T} {left x : Nat} {rest : List Nat} :
      s.poller.pc = .dequeue (left + 1) → s.queues s.poller.seg = x :: rest →
      Step cfg s []
        { s.setPc (.dequeue left) with
          queues := Function.update s.queues s.poller.seg rest
          lists := Function.update s.lists s.poller.seg (s.lists s.poller.seg ++ [x]) }
  | pollDequeued {s : State T} :
      s.poller.pc = .dequeue 0 → Step cfg s [] (s.setPc (.scan 0))
  | pollCheck {s : State T} {pos x : Nat} :
      s.poller.pc = .scan pos → (s.lists s.poller.seg)[pos]? = some x →
      Step cfg s [] (s.setPc (.checking pos x (s.beginCheck x)))
  | pollChecked {s : State T} {pos x : Nat} {c : Check} :
      s.poller.pc = .checking pos x c → c.pc = .returned →
      Step cfg s (s.copyBackEvents x)
        (((s.setRemaining x c.remaining).copyBack x).advance pos x c.remaining)
  | pollScanned {s : State T} {pos : Nat} :
      s.poller.pc = .scan pos → (s.lists s.poller.seg)[pos]? = none →
      Step cfg s [] (s.setPc .completing)
  | pollComplete {s : State T} {x : Nat} {rest : List Nat} :
      s.poller.pc = .completing → s.poller.completeRanges = x :: rest →
      Step cfg s [.complete x (s.objects x).toWait (s.objects x).task] (s.setPc .freeing)
  | pollFree {s : State T} {x : Nat} {rest : List Nat} :
      s.poller.pc = .freeing → s.poller.completeRanges = x :: rest →
      Step cfg s [.free x]
        { s.free x with poller := { s.poller with pc := .completing, completeRanges := rest } }
  /-- The loop counter is a `gaspi_segment_id_t`. -/
  | pollNext {s : State T} :
      s.poller.pc = .completing → s.poller.completeRanges = [] →
      Step cfg s []
        { s with poller := ⟨.segment, (s.poller.seg + 1) % 2 ^ cfg.segmentBits, []⟩ }

/-- The state `Environment::initialize` leaves behind: every slot is free and the
containers are empty. What the user's memory, the notifications and the freshly
allocated objects hold is arbitrary. -/
structure Initial {T : Type} (s : State T) : Prop where
  calls : ∀ t, s.calls t = .idle
  freeSlots : s.freeSlots = List.range numEntries
  queues : ∀ seg, s.queues seg = []
  lists : ∀ seg, s.lists seg = []
  poller : s.poller = ⟨.idle, 0, []⟩
  nextOp : s.nextOp = 0

/-- A freshly initialised library of one task, with the free queue `pool`: nothing
has been notified, the user's memory is zero and the pool memory holds `stale`. -/
def State.fresh (pool : List Nat) (stale : Nat) : State Unit where
  notifications _ := 0
  memory _ := 0
  calls _ := .idle
  freeSlots := pool
  objects _ :=
    { op := 0, segment := 0, firstId := 0, numIds := 0, notifiedValues := none,
      notifiedValue := stale, remaining := 0, task := () }
  queues _ := []
  lists _ := []
  poller := ⟨.idle, 0, []⟩
  nextOp := 0

theorem initial_fresh {pool : List Nat} (h : pool = List.range numEntries) (stale : Nat) :
    Initial (State.fresh pool stale) :=
  ⟨fun _ => rfl, h, fun _ => rfl, fun _ => rfl, rfl, rfl⟩

/-- Waiting for notifications, as a transition system. -/
def machine (T : Type) [DecidableEq T] (cfg : Limits) : System (State T) (Event T) where
  init := Initial
  step := Step cfg

end Tagaspi
