import Tagaspi.Gaspi

/-!
# Waiting ranges and the notification checks (`WaitingRange.hpp`)

A wait operation asks for `numIds` notifications on consecutive ids of a segment.
It is first checked by the calling task, on its stack, and, if something is still
missing, by the notifications poller through a `WaitingRange` taken from a
recycled pool.

The two static routines `checkNotification` (one id) and `checkNotifications`
(many ids) call GASPI twice per round, `gaspi_notify_waitsome` to find an id and
`gaspi_notify_reset` to take its value, and other threads run in between. A
running check is therefore a `Check`: the locals of the routine and the point it
has reached. The functions below are the code between two GASPI calls.
-/

namespace Tagaspi

/-- The arguments of one wait operation. `op` identifies the operation; it is not
part of the program. -/
structure Wait where
  op : Nat
  segment : Nat
  firstId : Nat
  numIds : Nat
  /-- The user's buffer, `none` for `GASPI_NOTIFICATION_IGNORE`. -/
  notifiedValues : Option Nat
deriving DecidableEq, Repr

/-- The ids the operation waits for. -/
def Wait.covers (w : Wait) (id : Nat) : Prop := w.firstId ≤ id ∧ id < w.firstId + w.numIds

/-- `class WaitingRange`. The arguments are those of the constructor;
`notifiedValue` is the member that the constructor leaves as it is. -/
structure WaitingRange (T : Type) extends Wait where
  notifiedValue : Nat
  remaining : Nat
  task : T

/-- The two static routines of `WaitingRange`. -/
inductive Routine where
  /-- `checkNotification`: one id, no loop. -/
  | one
  /-- `checkNotifications`: a loop over a range of ids. -/
  | many
deriving DecidableEq, Repr

/-- Where a routine stores the values it takes: the pointer it was called with. -/
inductive Target where
  /-- `GASPI_NOTIFICATION_IGNORE`. -/
  | ignore
  /-- The user's buffer at this address. -/
  | user (address : Nat)
  /-- `&_notifiedValue` of the range in this pool slot. -/
  | member (slot : Nat)
deriving DecidableEq, Repr

/-- A user pointer as a target. -/
def Target.ofPointer : Option Nat → Target
  | none => .ignore
  | some a => .user a

/-- The point a running check has reached. -/
inductive CheckPc where
  /-- About to call `gaspi_notify_waitsome`. -/
  | waitsome
  /-- About to call `gaspi_notify_reset` on this id. -/
  | reset (id : Nat)
  /-- Returned; the result is in `remaining`. -/
  | returned
deriving DecidableEq, Repr

/-- A running check. For `checkNotification` the variable `remaining` holds the
result it returns unless a notification is found. -/
structure Check where
  wait : Wait
  routine : Routine
  target : Target
  remaining : Nat
  pc : CheckPc
deriving DecidableEq, Repr

namespace Check

/-- The initial check of `tagaspi_notify_async_wait`. -/
def notifyAsyncWait (w : Wait) : Check :=
  { wait := w, routine := .one, target := .ofPointer w.notifiedValues, remaining := 1,
    pc := .waitsome }

/-- The initial check of `tagaspi_notify_async_waitall`. -/
def notifyAsyncWaitall (w : Wait) : Check :=
  { wait := w, routine := .many, target := .ofPointer w.notifiedValues, remaining := w.numIds,
    pc := .waitsome }

/-- `gaspi_notify_waitsome` returned `GASPI_TIMEOUT`: both routines return. -/
def afterTimeout (c : Check) : Check := { c with pc := .returned }

/-- `gaspi_notify_waitsome` returned `id`. `checkNotification` resets the id it
was called with, `checkNotifications` the one it was told. -/
def afterWaitsome (c : Check) (id : Nat) : Check :=
  match c.routine with
  | .one => { c with pc := .reset c.wait.firstId }
  | .many => { c with pc := .reset id }

/-- `checkNotification` after `gaspi_notify_reset` returned `value`: it returns
0 for a notification and 1 for none. -/
def checkNotification (c : Check) (value : Nat) : Check :=
  { c with remaining := if value ≠ 0 then 0 else 1, pc := .returned }

/-- The rest of the loop body of `checkNotifications` after `gaspi_notify_reset`
returned `value`, and the loop test `cont && remaining > 0`. -/
def checkNotifications (c : Check) (value : Nat) : Check :=
  if value ≠ 0 then
    { c with
      remaining := predNumber c.remaining
      pc := if 0 < predNumber c.remaining then .waitsome else .returned }
  else
    { c with pc := .returned }

/-- The code that follows `gaspi_notify_reset`. -/
def afterReset (c : Check) (value : Nat) : Check :=
  match c.routine with
  | .one => c.checkNotification value
  | .many => c.checkNotifications value

/-- The entry of `notifiedValues` that the value of `id` goes to. -/
def index (c : Check) (id : Nat) : Nat :=
  match c.routine with
  | .one => 0
  | .many => id - c.wait.firstId

@[simp] theorem afterTimeout_wait (c : Check) : c.afterTimeout.wait = c.wait := rfl

@[simp] theorem afterTimeout_remaining (c : Check) : c.afterTimeout.remaining = c.remaining := rfl

@[simp] theorem afterWaitsome_wait (c : Check) (id : Nat) :
    (c.afterWaitsome id).wait = c.wait := by
  unfold afterWaitsome; cases c.routine <;> rfl

@[simp] theorem afterWaitsome_remaining (c : Check) (id : Nat) :
    (c.afterWaitsome id).remaining = c.remaining := by
  unfold afterWaitsome; cases c.routine <;> rfl

@[simp] theorem afterReset_wait (c : Check) (v : Nat) : (c.afterReset v).wait = c.wait := by
  unfold afterReset checkNotification checkNotifications
  cases c.routine with
  | one => rfl
  | many => by_cases h : v ≠ 0 <;> simp [h]

/-- What holds of a check at every point: `checkNotification` only ever runs on a
single id, something is missing until the routine returns, never more than was
asked for, and the id about to be reset is one of the operation's. -/
structure Ok (c : Check) : Prop where
  one : c.routine = .one → c.wait.numIds = 1
  pos : c.pc ≠ .returned → 0 < c.remaining
  bound : c.remaining ≤ c.wait.numIds
  small : c.wait.numIds < 2 ^ numberBits
  resets : ∀ id, c.pc = .reset id → c.wait.covers id

theorem Ok.notifyAsyncWait {w : Wait} (h : w.numIds = 1) : (Check.notifyAsyncWait w).Ok where
  one _ := h
  pos _ := Nat.one_pos
  bound := Nat.le_of_eq h.symm
  small := by
    show w.numIds < 2 ^ numberBits
    rw [h]
    decide
  resets _ hid := by cases hid

theorem Ok.notifyAsyncWaitall {w : Wait} (hpos : 0 < w.numIds)
    (hsmall : w.numIds < 2 ^ numberBits) : (Check.notifyAsyncWaitall w).Ok where
  one hr := by cases hr
  pos _ := hpos
  bound := Nat.le_refl _
  small := hsmall
  resets _ hid := by cases hid

theorem Ok.afterTimeout {c : Check} (h : c.Ok) : c.afterTimeout.Ok where
  one := h.one
  pos hpc := absurd rfl hpc
  bound := h.bound
  small := h.small
  resets _ hid := by cases hid

theorem Ok.afterWaitsome {c : Check} (h : c.Ok) (hpc : c.pc = .waitsome) {id : Nat}
    (hid : c.wait.covers id) : (c.afterWaitsome id).Ok := by
  have hpos : 0 < c.remaining := h.pos (by rw [hpc]; exact CheckPc.noConfusion)
  unfold Check.afterWaitsome
  cases hr : c.routine with
  | one =>
    refine ⟨fun _ => h.one hr, fun _ => hpos, h.bound, h.small, fun id' hid' => ?_⟩
    obtain rfl : c.wait.firstId = id' := CheckPc.reset.inj hid'
    have := h.one hr
    exact ⟨Nat.le_refl _, by show c.wait.firstId < c.wait.firstId + c.wait.numIds; omega⟩
  | many =>
    refine ⟨fun hone => Routine.noConfusion hone, fun _ => hpos, h.bound, h.small,
      fun id' hid' => ?_⟩
    obtain rfl : id = id' := CheckPc.reset.inj hid'
    exact hid

/-- **What a reset does to the count**, in either routine: a notification lowers it
by one, and finding the id already taken leaves it. -/
theorem Ok.afterReset_remaining {c : Check} (h : c.Ok) {id : Nat} (hpc : c.pc = .reset id)
    (v : Nat) :
    (c.afterReset v).remaining = if v ≠ 0 then c.remaining - 1 else c.remaining := by
  have hpos : 0 < c.remaining := h.pos (by rw [hpc]; exact CheckPc.noConfusion)
  have hbound := h.bound
  unfold Check.afterReset
  cases hr : c.routine with
  | one =>
    have hone := h.one hr
    show (if v ≠ 0 then 0 else 1) = _
    by_cases hv : v ≠ 0
    · rw [if_pos hv, if_pos hv]
      omega
    · rw [if_neg hv, if_neg hv]
      omega
  | many =>
    unfold checkNotifications
    by_cases hv : v ≠ 0
    · rw [if_pos hv, if_pos hv]
      show predNumber c.remaining = c.remaining - 1
      obtain ⟨n, hn⟩ := Nat.exists_eq_succ_of_ne_zero (Nat.pos_iff_ne_zero.mp hpos)
      rw [hn]
      exact predNumber_succ (by have := h.small; omega)
    · rw [if_neg hv, if_neg hv]

/-- A routine that goes on after a reset is missing something. -/
theorem afterReset_pos {c : Check} {v : Nat} (h : (c.afterReset v).pc ≠ .returned) :
    0 < (c.afterReset v).remaining := by
  unfold afterReset at h ⊢
  cases hr : c.routine with
  | one =>
    rw [hr] at h
    exact absurd rfl h
  | many =>
    rw [hr] at h
    simp only [checkNotifications] at h ⊢
    by_cases hv : v ≠ 0
    · rw [if_pos hv] at h ⊢
      by_cases hp : 0 < predNumber c.remaining
      · exact hp
      · simp only [if_neg hp] at h
        exact absurd rfl h
    · rw [if_neg hv] at h
      exact absurd rfl h

/-- A routine that returns after it took a notification is missing nothing. -/
theorem afterReset_returned {c : Check} {v : Nat} (hv : v ≠ 0)
    (h : (c.afterReset v).pc = .returned) : (c.afterReset v).remaining = 0 := by
  unfold afterReset at h ⊢
  cases hr : c.routine with
  | one => exact if_pos hv
  | many =>
    rw [hr] at h
    simp only [checkNotifications, if_pos hv] at h ⊢
    by_cases hp : 0 < predNumber c.remaining
    · rw [if_pos hp] at h
      cases h
    · exact Nat.eq_zero_of_not_pos hp

/-- After a reset the routine is back at `gaspi_notify_waitsome` or has returned. -/
theorem afterReset_pc (c : Check) (v id : Nat) : (c.afterReset v).pc ≠ .reset id := by
  unfold afterReset checkNotification checkNotifications
  cases c.routine with
  | one => exact CheckPc.noConfusion
  | many =>
    by_cases hv : v ≠ 0
    · by_cases hp : 0 < predNumber c.remaining <;> simp [hv, hp]
    · simp [hv]

@[simp] theorem afterReset_routine (c : Check) (v : Nat) :
    (c.afterReset v).routine = c.routine := by
  unfold afterReset checkNotification checkNotifications
  cases c.routine with
  | one => rfl
  | many => by_cases h : v ≠ 0 <;> simp [h]

theorem Ok.afterReset {c : Check} (h : c.Ok) {id : Nat} (hpc : c.pc = .reset id) (v : Nat) :
    (c.afterReset v).Ok where
  one hr := by
    rw [afterReset_routine] at hr
    rw [afterReset_wait]
    exact h.one hr
  pos := afterReset_pos
  bound := by
    have hbound := h.bound
    rw [afterReset_wait, h.afterReset_remaining hpc]
    by_cases hv : v ≠ 0
    · rw [if_pos hv]
      omega
    · rw [if_neg hv]
      exact hbound
  small := by
    rw [afterReset_wait]
    exact h.small
  resets id' hid' := absurd hid' (afterReset_pc c v id')

end Check

end Tagaspi
