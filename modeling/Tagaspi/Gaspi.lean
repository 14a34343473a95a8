import Mathlib.Algebra.Order.Ring.Int
import Mathlib.Algebra.Order.Ring.Nat
import Mathlib.Order.Interval.Finset.Nat

/-!
# The GASPI side of the interface

TAGASPI sits between GASPI (`GASPI.h`, not part of the repository) and the
tasking runtime. What the library relies on is collected here: the widths of the
GASPI integer types, the limits GASPI reports at start-up
(`gaspi_queue_max`, `gaspi_segment_max`), the return codes and the number of
requests behind an operation.

`gaspi_number_t` is a 32-bit unsigned integer; the widths of `gaspi_queue_id_t`
and `gaspi_segment_id_t` are left as parameters, since nothing but their being
narrower counters matters.
-/

namespace Tagaspi

/-- Width of `gaspi_number_t` in bits. -/
def numberBits : Nat := 32

/-- `--n` on a `gaspi_number_t`: wraps around below zero. -/
def predNumber (n : Nat) : Nat := (n + (2 ^ numberBits - 1)) % 2 ^ numberBits

/-- Above zero the machine decrement is the decrement. -/
theorem predNumber_succ {n : Nat} (h : n + 1 < 2 ^ numberBits) : predNumber (n + 1) = n := by
  unfold predNumber
  have : n + 1 + (2 ^ numberBits - 1) = n + 2 ^ numberBits := by
    have : 0 < 2 ^ numberBits := Nat.two_pow_pos _
    omega
  rw [this, Nat.add_mod_right]
  exact Nat.mod_eq_of_lt (by omega)

/-- `n - 1` on a `size_t`. -/
def predSize (n : Nat) : Nat := (n + (2 ^ 64 - 1)) % 2 ^ 64

theorem predSize_eq {n : Nat} (hpos : 0 < n) (hlt : n < 2 ^ 64) : predSize n = n - 1 := by
  unfold predSize
  rw [show n + (2 ^ 64 - 1) = n - 1 + 2 ^ 64 by omega, Nat.add_mod_right]
  exact Nat.mod_eq_of_lt (by omega)

/-- The codes GASPI calls return; `error` stands for every code that is neither
success nor a timeout. -/
inductive Ret where
  | success
  | timeout
  | error
deriving DecidableEq, Repr

/-- What GASPI reports when it is initialised, with the widths of its narrow id
types. -/
structure Limits where
  /-- `gaspi_queue_max`. -/
  maxQueues : Nat
  /-- `gaspi_segment_max`. -/
  maxSegments : Nat
  /-- Width of `gaspi_queue_id_t`. -/
  queueBits : Nat
  /-- Width of `gaspi_segment_id_t`. -/
  segmentBits : Nat

/-- The GASPI operations that TAGASPI submits. -/
inductive GaspiOp where
  | read
  | write
  | notify
  | writeNotify
  | readList
  | writeList
  | writeListNotify
deriving DecidableEq, Repr

/-- The requests of GASPI operations. A submission of `op` over `num` elements that
succeeds posts as many requests as `gaspi_operation_get_num_requests` reports. -/
structure Requests where
  /-- `gaspi_operation_get_num_requests(op, num)`. -/
  reported : GaspiOp → Nat → Nat
  /-- What a submission posts. -/
  posted : GaspiOp → Nat → Nat
  agree : ∀ op num, posted op num = reported op num

/-- `Environment::Operation`: the operations whose number of requests is asked for once. -/
inductive Operation where
  | read
  | write
  | notify
  | writeNotify
deriving DecidableEq, Repr

/-- The operation that `Environment::initialize` asks about. -/
def Operation.gaspiOp : Operation → GaspiOp
  | .read => .read
  | .write => .write
  | .notify => .notify
  | .writeNotify => .writeNotify

/-- `_env.numRequests`, as `Environment::initialize` fills it. -/
def Requests.env (rq : Requests) (o : Operation) : Nat := rq.reported o.gaspiOp 1

/-- The number of queues is a `gaspi_number_t`, and every queue has an id. -/
structure Limits.Representable (cfg : Limits) : Prop where
  maxQueues_lt : cfg.maxQueues < 2 ^ numberBits
  maxQueues_le : cfg.maxQueues ≤ 2 ^ cfg.queueBits

end Tagaspi
