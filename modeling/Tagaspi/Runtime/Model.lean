import Tagaspi.Environment
import Tagaspi.Notifications.Events

/-!
# The whole runtime: RMA operations, waits and both pollers

Tasks call the seven RMA functions (`Read.cpp`, `Write.cpp`, `Notify.cpp`,
`WriteNotify.cpp`, `ReadList.cpp`, `WriteList.cpp`, `WriteListNotify.cpp`) and the
two wait functions. An RMA call takes as many events of its task as its operation
posts requests, and the queue pollers (`Polling::pollQueues`) give one back for each
request that GASPI reports as completed.

- `Submission`, `IsSubmission`: what an RMA call asks for, one definition per entry
  point.
- `Runtime`: the state, with the machine of the waits inside.
- `Runtime.Step`, `Runtime.machine`: a step is one ALPI call, one request posted,
  completed or processed, one `gaspi_request_wait`, or a step of the waits. GASPI may
  complete a request, and a poller report it, before the submitting call has
  returned.

An error of a completed request, or of `gaspi_request_wait` other than an invalid
queue, makes the process abort, so no step leads out of it.
-/

namespace Tagaspi

open Lts

/-! ## The entry points -/

/-- What an RMA call submits. -/
structure Submission where
  op : GaspiOp
  /-- The number of elements, 1 for the operations that are not lists. -/
  num : Nat
  queue : Nat
  /-- The events that the call takes. -/
  numRequests : Nat
deriving DecidableEq, Repr

section EntryPoints

variable (rq : Requests)

/-- The calls that look up `_env.numRequests[o]` and submit `op`. -/
def submitOne (o : Operation) (op : GaspiOp) (queue : Nat) : Submission :=
  ⟨op, 1, queue, rq.env o⟩

/-- The calls that ask for the number of requests of `op` and submit it. -/
def submitList (asked op : GaspiOp) (num queue : Nat) : Submission :=
  ⟨op, num, queue, rq.reported asked num⟩

def tagaspiRead (queue : Nat) : Submission := submitOne rq .read .read queue

def tagaspiWrite (queue : Nat) : Submission := submitOne rq .write .write queue

def tagaspiNotify (queue : Nat) : Submission := submitOne rq .notify .notify queue

def tagaspiWriteNotify (queue : Nat) : Submission := submitOne rq .writeNotify .writeNotify queue

def tagaspiReadList (num queue : Nat) : Submission := submitList rq .readList .readList num queue

def tagaspiWriteList (num queue : Nat) : Submission := submitList rq .writeList .writeList num queue

def tagaspiWriteListNotify (num queue : Nat) : Submission :=
  submitList rq .writeListNotify .writeListNotify num queue

/-- The submissions that the entry points make. -/
inductive IsSubmission : Submission → Prop where
  | read (queue : Nat) : IsSubmission (tagaspiRead rq queue)
  | write (queue : Nat) : IsSubmission (tagaspiWrite rq queue)
  | notify (queue : Nat) : IsSubmission (tagaspiNotify rq queue)
  | writeNotify (queue : Nat) : IsSubmission (tagaspiWriteNotify rq queue)
  | readList (num queue : Nat) : IsSubmission (tagaspiReadList rq num queue)
  | writeList (num queue : Nat) : IsSubmission (tagaspiWriteList rq num queue)
  | writeListNotify (num queue : Nat) : IsSubmission (tagaspiWriteListNotify rq num queue)

variable {rq}

/-- **Every entry point takes as many events as its operation posts requests.** -/
theorem IsSubmission.posted {a : Submission} (h : IsSubmission rq a) :
    rq.posted a.op a.num = a.numRequests := by
  cases h <;> exact rq.agree _ _

end EntryPoints

/-! ## The state -/

/-- `Polling::BatchSize`. -/
def batchSize : Nat := 64

/-- Where an RMA call stands. -/
inductive RmaCall where
  | idle
  /-- About to take the events. -/
  | increase (id : Nat) (a : Submission)
  /-- About to submit. -/
  | submit (id : Nat) (a : Submission)
  /-- GASPI has accepted the operation and has `left` requests to post. -/
  | posting (id left queue : Nat)
  /-- The submission has failed: about to give the events back. -/
  | rollback (id numRequests : Nat)
deriving DecidableEq, Repr

/-- A request in GASPI. The tag is the task; a request that was not posted by TAGASPI has
none. -/
structure Request (T : Type) where
  queue : Nat
  tag : Option T
  completed : Bool
deriving DecidableEq, Repr

/-- Where `pollQueues` stands. -/
inductive QueuePoll (T : Type) where
  | idle
  /-- At the test of the loop over the queues, `last` being the end. -/
  | head (queue last : Nat)
  /-- About to call `gaspi_request_wait`. -/
  | wait (queue last : Nat)
  /-- Going through the tags of a batch of `completedReqs` requests. -/
  | batch (queue last completedReqs : Nat) (tags : List (Option T))
deriving DecidableEq, Repr

/-- The state of the whole runtime. -/
structure Runtime (T : Type) where
  waits : State T
  rma : T → RmaCall
  /-- The ALPI event counter of each task. -/
  events : T → Int
  /-- The requests that were posted and not reported yet. -/
  requests : List (Request T)
  pollers : Nat → QueuePoll T
  /-- The identity of the next RMA call. -/
  nextCall : Nat

/-- The fixed parameters. -/
structure Config where
  limits : Limits
  requests : Requests
  /-- The number of polling instances for queues, and the queues of each. -/
  instances : Nat
  infos : Nat → PollingInfo

inductive RtEvent (T : Type) where
  /-- An event of the machine of the waits. -/
  | wait (e : Event T)
  /-- An RMA function is called. -/
  | call (id : Nat) (t : T)
  /-- `increaseCurrentTaskEvents(t, n)` in an RMA call. -/
  | increase (id : Nat) (t : T) (n : Nat)
  /-- `decreaseTaskEvents(t, n)` after a failed submission. -/
  | rollback (id : Nat) (t : T) (n : Nat)
  /-- The RMA call returns `GASPI_SUCCESS`. -/
  | success (id : Nat) (t : T)
  /-- The RMA call returns an error. -/
  | failure (id : Nat) (t : T)
  /-- `decreaseTaskEvents(t, 1)` in `pollQueues`. -/
  | completed (t : T)
deriving DecidableEq

namespace Runtime

section Code

variable {T : Type} [DecidableEq T]

def setRma (r : Runtime T) (t : T) (c : RmaCall) : Runtime T :=
  { r with rma := Function.update r.rma t c }

def setPoll (r : Runtime T) (ins : Nat) (p : QueuePoll T) : Runtime T :=
  { r with pollers := Function.update r.pollers ins p }

/-- Change the event counter of a task. -/
def addEvents (r : Runtime T) (t : T) (n : Int) : Runtime T :=
  { r with events := Function.update r.events t (r.events t + n) }

end Code

/-- One atomic step. -/
inductive Step {T : Type} [DecidableEq T] (cfg : Config) :
    Runtime T → List (RtEvent T) → Runtime T → Prop where
  /-- A step of the waits. A task that enters a wait call is in no RMA call. -/
  | wait {r : Runtime T} {es : List (Event T)} {s' : State T} :
      Tagaspi.Step cfg.limits r.waits es s' →
      (∀ t w, Event.start t w ∈ es → r.rma t = .idle) →
      Step cfg r (es.map .wait)
        { r with waits := s', events := fun t => r.events t + effects t es }
  -- the RMA functions
  | call {r : Runtime T} {t : T} {a : Submission} :
      r.rma t = .idle → r.waits.calls t = .idle → IsSubmission cfg.requests a →
      Step cfg r [.call r.nextCall t]
        { r.setRma t (.increase r.nextCall a) with nextCall := r.nextCall + 1 }
  | increase {r : Runtime T} {t : T} {id : Nat} {a : Submission} :
      r.rma t = .increase id a →
      Step cfg r [.increase id t a.numRequests]
        ((r.addEvents t a.numRequests).setRma t (.submit id a))
  /-- GASPI accepts the operation. -/
  | submit {r : Runtime T} {t : T} {id : Nat} {a : Submission} :
      r.rma t = .submit id a →
      Step cfg r []
        (r.setRma t (.posting id (cfg.requests.posted a.op a.num) a.queue))
  | post {r : Runtime T} {t : T} {id left queue : Nat} :
      r.rma t = .posting id (left + 1) queue →
      Step cfg r []
        { r.setRma t (.posting id left queue) with
          requests := r.requests ++ [⟨queue, some t, false⟩] }
  | success {r : Runtime T} {t : T} {id queue : Nat} :
      r.rma t = .posting id 0 queue → Step cfg r [.success id t] (r.setRma t .idle)
  /-- GASPI rejects the operation, without posting anything. -/
  | reject {r : Runtime T} {t : T} {id : Nat} {a : Submission} :
      r.rma t = .submit id a → Step cfg r [] (r.setRma t (.rollback id a.numRequests))
  | rollback {r : Runtime T} {t : T} {id n : Nat} :
      r.rma t = .rollback id n →
      Step cfg r [.rollback id t n, .failure id t] ((r.addEvents t (-n)).setRma t .idle)
  -- GASPI
  /-- The application posts a request of its own, with `GASPI_TAG_NULL`. -/
  | external {r : Runtime T} {queue : Nat} :
      Step cfg r [] { r with requests := r.requests ++ [⟨queue, none, false⟩] }
  | complete {r : Runtime T} {before after : List (Request T)} {q : Request T} :
      r.requests = before ++ q :: after →
      Step cfg r [] { r with requests := before ++ { q with completed := true } :: after }
  -- pollQueues
  | pollStart {r : Runtime T} {ins : Nat} :
      ins < cfg.instances → r.pollers ins = .idle →
      Step cfg r []
        (r.setPoll ins (.head (cfg.infos ins).firstQueue
          (((cfg.infos ins).firstQueue + (cfg.infos ins).numQueues) % 2 ^ numberBits)))
  | pollEnter {r : Runtime T} {ins queue last : Nat} :
      ins < cfg.instances → r.pollers ins = .head queue last → queue < last →
      Step cfg r [] (r.setPoll ins (.wait queue last))
  | pollEnd {r : Runtime T} {ins queue last : Nat} :
      ins < cfg.instances → r.pollers ins = .head queue last → ¬ queue < last →
      Step cfg r [] (r.setPoll ins .idle)
  /-- `gaspi_request_wait` takes some completed requests of the queue, with or without a
  timeout. -/
  | pollWait {r : Runtime T} {ins queue last : Nat} {batch rest : List (Request T)} :
      ins < cfg.instances → r.pollers ins = .wait queue last →
      r.requests.Perm (batch ++ rest) → batch.length ≤ batchSize →
      (∀ q ∈ batch, q.queue = queue ∧ q.completed = true) →
      Step cfg r []
        { r.setPoll ins (.batch queue last batch.length (batch.map (·.tag))) with requests := rest }
  /-- `GASPI_ERR_INV_QUEUE`: the queue is not created. -/
  | pollInvalid {r : Runtime T} {ins queue last : Nat} :
      ins < cfg.instances → r.pollers ins = .wait queue last →
      Step cfg r [] (r.setPoll ins (.batch queue last 0 []))
  | pollNull {r : Runtime T} {ins queue last n : Nat} {tags : List (Option T)} :
      ins < cfg.instances → r.pollers ins = .batch queue last n (none :: tags) →
      Step cfg r [] (r.setPoll ins (.batch queue last n tags))
  | pollDecrease {r : Runtime T} {ins queue last n : Nat} {t : T} {tags : List (Option T)} :
      ins < cfg.instances → r.pollers ins = .batch queue last n (some t :: tags) →
      Step cfg r [.completed t]
        ((r.addEvents t (-1)).setPoll ins (.batch queue last n tags))
  /-- The batch was full: there may be more. -/
  | pollAgain {r : Runtime T} {ins queue last n : Nat} :
      ins < cfg.instances → r.pollers ins = .batch queue last n [] → n = batchSize →
      Step cfg r [] (r.setPoll ins (.wait queue last))
  | pollNext {r : Runtime T} {ins queue last n : Nat} :
      ins < cfg.instances → r.pollers ins = .batch queue last n [] → n ≠ batchSize →
      Step cfg r [] (r.setPoll ins (.head ((queue + 1) % 2 ^ cfg.limits.queueBits) last))

/-- After `Environment::initialize`: no call, no request, no event. -/
structure Initial {T : Type} (r : Runtime T) : Prop where
  waits : Tagaspi.Initial r.waits
  rma : ∀ t, r.rma t = .idle
  events : ∀ t, r.events t = 0
  requests : r.requests = []
  pollers : ∀ ins, r.pollers ins = .idle
  nextCall : r.nextCall = 0

/-- The runtime, as a transition system. -/
def machine (T : Type) [DecidableEq T] (cfg : Config) : System (Runtime T) (RtEvent T) where
  init := Initial
  step := Step cfg

end Runtime

end Tagaspi
