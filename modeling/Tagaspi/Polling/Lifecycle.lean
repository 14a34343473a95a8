import Tagaspi.Lib.Lts
import Tagaspi.Gaspi

/-!
# The life of the polling instances

`Polling::initialize` registers one polling instance per group of queues and one
for the notifications; each runs `TaskingModel::genericPolling` in a task of its
own. `Environment::finalize` unregisters them one after the other and then frees
everything they work on. The two sides only share the flags `_mustFinish` and
`_finished` of each `PollingInstance`, and the finalising thread deletes the
instance.

A step is one access to a shared flag, one call or return of the polling function,
or one statement of the initialising or finalising thread. The machine does not
forbid touching a deleted instance: that it never happens is the theorem
(`polling_stops_before_teardown`).
-/

namespace Tagaspi

open Lts

/-- `qppi` of `Polling::initialize`: the queues every instance gets. -/
def qppi (maxQueues instances : Nat) : Nat := maxQueues / instances % 2 ^ numberBits

/-- `remq` of `Polling::initialize`: how many instances get one queue more. -/
def remq (maxQueues instances : Nat) : Nat := maxQueues % instances % 2 ^ numberBits

/-- `info->numQueues` of instance `ins`. -/
def instanceQueues (maxQueues instances ins : Nat) : Nat :=
  (qppi maxQueues instances + if ins < remq maxQueues instances then 1 else 0) % 2 ^ numberBits

namespace Lifecycle

/-- The polling function of an instance, with its argument. -/
inductive PollingFunction where
  | pollQueues (ins : Nat)
  | pollNotifications
deriving DecidableEq, Repr

/-- The point a polling task has reached. -/
inductive Body where
  /-- In `genericPolling`, about to test `_mustFinish`. -/
  | test
  /-- About to read `_function` and `_args` and to call the function. -/
  | call
  /-- In the polling function. -/
  | running
  /-- In `alpi_task_waitfor_ns`. -/
  | wait
  /-- `genericPolling` has returned. -/
  | left
  /-- `genericCompleted` has run. -/
  | completed
deriving DecidableEq, Repr

/-- `TaskingModel::PollingInstance`, with the task that polls for it. -/
structure PollingInstance where
  function : PollingFunction
  mustFinish : Bool
  finished : Bool
  deleted : Bool
  body : Body
deriving DecidableEq, Repr

/-- The instance that `registerPolling` makes. -/
def PollingInstance.new (f : PollingFunction) : PollingInstance := ⟨f, false, false, false, .test⟩

structure QueuePollingInfo where
  firstQueue : Nat
  numQueues : Nat
  pollingInstance : Nat
deriving DecidableEq, Repr

/-- Where `Polling::finalize` finds the instance to unregister. -/
inductive Handle where
  /-- `_queuePollingInfos[ins].pollingInstance`. -/
  | queue (ins : Nat)
  /-- `_notificationsPollingInstance`. -/
  | notifications
deriving DecidableEq, Repr

/-- The point `unregisterPolling` has reached. -/
inductive Unregister where
  /-- About to set `_mustFinish`. -/
  | set
  /-- About to read `_finished`. -/
  | read
  /-- About to delete the instance and to return. -/
  | delete
deriving DecidableEq, Repr

/-- The point the initialising and finalising thread has reached. -/
inductive Main where
  /-- At the test of the loop of `Polling::initialize`. -/
  | registering (ins queue : Nat)
  | registerNotifications
  /-- The library is initialised. -/
  | ready
  /-- At the test of the loop of `Polling::finalize`. -/
  | finalizing (ins : Nat)
  | unregister (h : Handle) (pc : Unregister)
  /-- About to clear `_queuePollingInfos`. -/
  | clear
  /-- `Polling::finalize` has returned: about to free the environment. -/
  | teardown
  /-- The environment is being freed, or is gone. -/
  | freed
deriving DecidableEq, Repr

structure State where
  main : Main
  /-- `_queuePollingInfos.size()`. -/
  size : Nat
  infos : Nat → QueuePollingInfo
  notificationsPollingInstance : Nat
  /-- The heap: instance `i` is the `i`-th one allocated. -/
  instances : Nat → PollingInstance
  next : Nat

inductive Event where
  /-- `registerPolling` returns instance `i`. -/
  | register (i : Nat)
  /-- A field of instance `i` is read or written. -/
  | access (i : Nat)
  /-- The polling function is called for instance `i`. -/
  | pollStart (i : Nat)
  /-- The polling function of instance `i` takes a step. -/
  | pollStep (i : Nat)
  /-- `unregisterPolling` is called on instance `i`. -/
  | unregister (i : Nat)
  /-- Instance `i` is deleted and `unregisterPolling` returns. -/
  | delete (i : Nat)
  /-- `Environment::finalize` begins to delete the queues, the lists and the pool. -/
  | teardown
deriving DecidableEq, Repr

namespace State

def handle (s : State) : Handle → Nat
  | .queue ins => (s.infos ins).pollingInstance
  | .notifications => s.notificationsPollingInstance

/-- Change instance `i`. -/
def modify (s : State) (i : Nat) (f : PollingInstance → PollingInstance) : State :=
  { s with instances := Function.update s.instances i (f (s.instances i)) }

/-- `registerPolling`: a new instance, with its task spawned. -/
def registerPolling (s : State) (f : PollingFunction) : State :=
  { s with instances := Function.update s.instances s.next (.new f), next := s.next + 1 }

end State

/-- Where `Polling::finalize` goes on after `unregisterPolling`. -/
def Handle.after : Handle → Main
  | .queue ins => .finalizing (ins + 1)
  | .notifications => .clear

/-- One atomic step, with `n` queue polling instances asked for. -/
inductive Step (cfg : Limits) (n : Nat) : State → List Event → State → Prop where
  -- Polling::initialize
  | registerQueue {s : State} {ins queue : Nat} :
      s.main = .registering ins queue → ins < n → 0 < instanceQueues cfg.maxQueues n ins →
      Step cfg n s [.register s.next]
        { s.registerPolling (.pollQueues ins) with
          infos := Function.update s.infos ins
            ⟨queue, instanceQueues cfg.maxQueues n ins, s.next⟩
          main := .registering ((ins + 1) % 2 ^ numberBits)
            ((queue + instanceQueues cfg.maxQueues n ins) % 2 ^ cfg.queueBits) }
  | registerNone {s : State} {ins queue : Nat} :
      s.main = .registering ins queue → ins < n → ¬ 0 < instanceQueues cfg.maxQueues n ins →
      Step cfg n s []
        { s with
          infos := Function.update s.infos ins
            { s.infos ins with numQueues := instanceQueues cfg.maxQueues n ins }
          main := .registering ((ins + 1) % 2 ^ numberBits) queue }
  | registerEnd {s : State} {ins queue : Nat} :
      s.main = .registering ins queue → ¬ ins < n →
      Step cfg n s [] { s with main := .registerNotifications }
  | registerNotifications {s : State} :
      s.main = .registerNotifications →
      Step cfg n s [.register s.next]
        { s.registerPolling .pollNotifications with
          notificationsPollingInstance := s.next, main := .ready }
  -- Polling::finalize
  | finalize {s : State} : s.main = .ready → Step cfg n s [] { s with main := .finalizing 0 }
  | finalizeNone {s : State} {ins : Nat} :
      s.main = .finalizing ins → ins < s.size → (s.infos ins).numQueues = 0 →
      Step cfg n s [] { s with main := .finalizing (ins + 1) }
  | finalizeQueue {s : State} {ins : Nat} :
      s.main = .finalizing ins → ins < s.size → (s.infos ins).numQueues ≠ 0 →
      Step cfg n s [] { s with main := .unregister (.queue ins) .set }
  | finalizeEnd {s : State} {ins : Nat} :
      s.main = .finalizing ins → ¬ ins < s.size →
      Step cfg n s [] { s with main := .unregister .notifications .set }
  | setMustFinish {s : State} {h : Handle} :
      s.main = .unregister h .set →
      Step cfg n s [.unregister (s.handle h), .access (s.handle h)]
        { s.modify (s.handle h) fun p => { p with mustFinish := true } with
          main := .unregister h .read }
  /-- `_finished` is not set: `unregisterPolling` yields and reads it again. -/
  | notFinished {s : State} {h : Handle} :
      s.main = .unregister h .read → (s.instances (s.handle h)).finished = false →
      Step cfg n s [.access (s.handle h)] s
  | isFinished {s : State} {h : Handle} :
      s.main = .unregister h .read → (s.instances (s.handle h)).finished = true →
      Step cfg n s [.access (s.handle h)] { s with main := .unregister h .delete }
  | delete {s : State} {h : Handle} :
      s.main = .unregister h .delete →
      Step cfg n s [.access (s.handle h), .delete (s.handle h)]
        { s.modify (s.handle h) fun p => { p with deleted := true } with main := h.after }
  | clear {s : State} :
      s.main = .clear → Step cfg n s [] { s with size := 0, main := .teardown }
  -- the rest of Environment::finalize
  | teardown {s : State} : s.main = .teardown → Step cfg n s [.teardown] { s with main := .freed }
  -- genericPolling
  | testContinue {s : State} {i : Nat} :
      i < s.next → (s.instances i).body = .test → (s.instances i).mustFinish = false →
      Step cfg n s [.access i] (s.modify i fun p => { p with body := .call })
  | testLeave {s : State} {i : Nat} :
      i < s.next → (s.instances i).body = .test → (s.instances i).mustFinish = true →
      Step cfg n s [.access i] (s.modify i fun p => { p with body := .left })
  | call {s : State} {i : Nat} :
      i < s.next → (s.instances i).body = .call →
      Step cfg n s [.access i, .pollStart i] (s.modify i fun p => { p with body := .running })
  | poll {s : State} {i : Nat} :
      i < s.next → (s.instances i).body = .running → Step cfg n s [.pollStep i] s
  | pollReturn {s : State} {i : Nat} :
      i < s.next → (s.instances i).body = .running →
      Step cfg n s [] (s.modify i fun p => { p with body := .wait })
  | waited {s : State} {i : Nat} :
      i < s.next → (s.instances i).body = .wait →
      Step cfg n s [] (s.modify i fun p => { p with body := .test })
  -- genericCompleted
  | completed {s : State} {i : Nat} :
      i < s.next → (s.instances i).body = .left →
      Step cfg n s [.access i]
        (s.modify i fun p => { p with finished := true, body := .completed })

/-- `Polling::initialize` has resized the vector and is about to enter its loop; what
the new entries and the unallocated heap hold does not matter. -/
structure Initial (n : Nat) (s : State) : Prop where
  main : s.main = .registering 0 0
  size : s.size = n
  next : s.next = 0

/-- The polling instances, from initialisation to teardown. -/
def machine (cfg : Limits) (n : Nat) : System State Event where
  init := Initial n
  step := Step cfg n

/-! ## Which instances are still to be unregistered -/

/-- The first queue instance that is not unregistered yet. -/
def Main.first : Main → Nat
  | .finalizing ins => ins
  | .unregister (.queue ins) _ => ins
  | _ => 0

/-- The end of the queue instances that are registered and not unregistered yet. -/
def Main.last (n : Nat) : Main → Nat
  | .registering ins _ => ins
  | .registerNotifications | .ready | .finalizing _ | .unregister (.queue _) _ => n
  | _ => 0

/-- The notifications instance is registered and not unregistered yet. -/
def Main.armed : Main → Prop
  | .ready | .finalizing _ | .unregister _ _ => True
  | _ => False

/-- The handles of the instances that are registered and not unregistered yet. -/
def State.pending (n : Nat) (s : State) : Handle → Prop
  | .queue ins => (s.infos ins).numQueues ≠ 0 ∧ s.main.first ≤ ins ∧ ins < s.main.last n
  | .notifications => s.main.armed

/-- The instances that exist are those behind the pending handles, each behind one. -/
structure Handles (n : Nat) (s : State) : Prop where
  alive : ∀ h, s.pending n h → s.handle h < s.next ∧ (s.instances (s.handle h)).deleted = false
  unique : ∀ h h', s.pending n h → s.pending n h' → s.handle h = s.handle h' → h = h'
  cover : ∀ i, i < s.next → (s.instances i).deleted = false → ∃ h, s.pending n h ∧ s.handle h = i

/-- **The invariant.** The loop of `Polling::initialize` ends only if its 32-bit
counter can reach `n`; that is why the handles are accounted for only then. -/
structure Inv (n : Nat) (s : State) : Prop where
  flag : ∀ i, i < s.next → ((s.instances i).finished = true ↔ (s.instances i).body = .completed)
  gone : ∀ i, i < s.next → (s.instances i).deleted = true → (s.instances i).body = .completed
  seen : ∀ h, s.main = .unregister h .delete → (s.instances (s.handle h)).body = .completed
  loop : ∀ ins queue, s.main = .registering ins queue →
    ins < 2 ^ numberBits ∧ (n < 2 ^ numberBits → ins ≤ n) ∧
      ∀ i, i < s.next → (s.instances i).deleted = false
  bound : (∀ ins queue, s.main ≠ .registering ins queue) → n < 2 ^ numberBits
  size : s.main ≠ .teardown → s.main ≠ .freed → s.size = n
  target : ∀ ins pc, s.main = .unregister (.queue ins) pc →
    (s.infos ins).numQueues ≠ 0 ∧ ins < n
  handles : n < 2 ^ numberBits → Handles n s

section Invariant

variable {cfg : Limits} {n : Nat} {s s' : State} {es : List Event}

theorem inv_init (h : Initial n s) : Inv n s := by
  have hnext := h.next
  -- nothing is registered yet
  have hnone : ∀ h', ¬ s.pending n h' := by
    intro h' hp
    cases h' with
    | queue ins =>
      have := hp.2.2
      rw [h.main] at this
      exact absurd this (Nat.not_lt_zero _)
    | notifications =>
      have hp' : s.main.armed := hp
      rw [h.main] at hp'
      exact hp'.elim
  refine ⟨?_, ?_, ?_, ?_, ?_, fun _ _ => h.size, ?_, fun _ => ⟨?_, ?_, ?_⟩⟩
  · intro i hi
    omega
  · intro i hi
    omega
  · intro h' hm
    rw [h.main] at hm
    cases hm
  · intro ins queue hm
    rw [h.main] at hm
    obtain ⟨rfl, rfl⟩ := Main.registering.inj hm
    exact ⟨Nat.two_pow_pos _, fun _ => Nat.zero_le _, fun i hi => by omega⟩
  · intro hm
    exact absurd h.main (hm 0 0)
  · intro ins pc hm
    rw [h.main] at hm
    cases hm
  · intro h' hp
    exact absurd hp (hnone h')
  · intro h' h'' hp
    exact absurd hp (hnone h')
  · intro i hi
    omega

/-- An instance some task still polls for is not deleted. -/
theorem Inv.not_deleted (h : Inv n s) {i : Nat} (hi : i < s.next)
    (hbody : (s.instances i).body ≠ .completed) : (s.instances i).deleted = false := by
  cases hd : (s.instances i).deleted with
  | false => rfl
  | true => exact absurd (h.gone i hi hd) hbody

/-- Once everything is unregistered, every instance is deleted. -/
theorem Inv.all_deleted (h : Inv n s) (hm : s.main = .clear ∨ s.main = .teardown ∨ s.main = .freed)
    {i : Nat} (hi : i < s.next) : (s.instances i).deleted = true := by
  have hbound : n < 2 ^ numberBits := by
    refine h.bound fun ins queue hm' => ?_
    rcases hm with hm | hm | hm <;> rw [hm] at hm' <;> cases hm'
  by_contra hd
  obtain ⟨h', hp, -⟩ := (h.handles hbound).cover i hi (by simpa using hd)
  cases h' with
  | queue ins =>
    have := hp.2.2
    rcases hm with hm | hm | hm <;> rw [hm] at this <;> exact absurd this (Nat.not_lt_zero _)
  | notifications =>
    have hp' : s.main.armed := hp
    rcases hm with hm | hm | hm <;> rw [hm] at hp' <;> exact hp'

/-! ### The polling tasks -/

@[simp] theorem modify_self (i : Nat) (f : PollingInstance → PollingInstance) :
    (s.modify i f).instances i = f (s.instances i) :=
  Function.update_self ..

@[simp] theorem modify_next (i : Nat) (f : PollingInstance → PollingInstance) :
    (s.modify i f).next = s.next := rfl

theorem modify_of_ne {i j : Nat} (f : PollingInstance → PollingInstance) (h : j ≠ i) :
    (s.modify i f).instances j = s.instances j :=
  Function.update_of_ne h ..

/-- A change of one instance that is not deleted keeps the invariant, as long as the
flag and the completion of its task go together. -/
theorem Inv.modify (h : Inv n s) {i : Nat} {f : PollingInstance → PollingInstance}
    (hflag : (f (s.instances i)).finished = true ↔ (f (s.instances i)).body = .completed)
    (hdel : (f (s.instances i)).deleted = (s.instances i).deleted)
    (hdone : (s.instances i).body = .completed → (f (s.instances i)).body = .completed) :
    Inv n (s.modify i f) := by
  have hdeleted : ∀ j, ((s.modify i f).instances j).deleted = (s.instances j).deleted := by
    intro j
    by_cases hj : j = i
    · subst hj
      rw [modify_self, hdel]
    · rw [modify_of_ne f hj]
  have hcompleted : ∀ j, (s.instances j).body = .completed →
      ((s.modify i f).instances j).body = .completed := by
    intro j hb
    by_cases hj : j = i
    · subst hj
      rw [modify_self]
      exact hdone hb
    · rw [modify_of_ne f hj]
      exact hb
  refine ⟨?_, ?_, ?_, ?_, h.bound, h.size, h.target, fun hn => ?_⟩
  · intro j hj
    by_cases hji : j = i
    · subst hji
      rw [modify_self]
      exact hflag
    · rw [modify_of_ne f hji]
      exact h.flag j hj
  · intro j hj hd
    rw [hdeleted] at hd
    exact hcompleted j (h.gone j hj hd)
  · intro h' hm
    exact hcompleted _ (h.seen h' hm)
  · intro ins queue hm
    obtain ⟨h₁, h₂, h₃⟩ := h.loop ins queue hm
    exact ⟨h₁, h₂, fun j hj => by rw [hdeleted]; exact h₃ j hj⟩
  · have hh := h.handles hn
    refine ⟨fun h' hp => ?_, fun h' h'' => hh.unique h' h'', fun j hj hd => ?_⟩
    · obtain ⟨h₁, h₂⟩ := hh.alive h' hp
      exact ⟨h₁, by rw [show (s.modify i f).handle h' = s.handle h' from rfl, hdeleted]; exact h₂⟩
    · rw [hdeleted] at hd
      exact hh.cover j hj hd

/-- A polling task moves on inside its body. -/
theorem Inv.move (h : Inv n s) {i : Nat} {b : Body} (hi : i < s.next)
    (hbody : (s.instances i).body ≠ .completed) (hb : b ≠ .completed) :
    Inv n (s.modify i fun p => { p with body := b }) := by
  refine h.modify ?_ rfl fun hc => absurd hc hbody
  have hflag := h.flag i hi
  exact iff_of_false (fun hf => hbody (hflag.mp hf)) hb

/-! ### The initialising and finalising thread -/

/-- The handle that is being unregistered is pending. -/
theorem Inv.pending_unregister (hinv : Inv n s) {h : Handle} {pc : Unregister}
    (hm : s.main = .unregister h pc) : s.pending n h := by
  cases h with
  | queue ins =>
    obtain ⟨h₁, h₂⟩ := hinv.target ins pc hm
    refine ⟨h₁, ?_, ?_⟩ <;> rw [hm]
    · exact Nat.le_refl _
    · exact h₂
  | notifications =>
    show s.main.armed
    rw [hm]
    trivial

/-- The instance that is being unregistered exists. -/
theorem Inv.handle_exists (hinv : Inv n s) {h : Handle} {pc : Unregister}
    (hm : s.main = .unregister h pc) :
    s.handle h < s.next ∧ (s.instances (s.handle h)).deleted = false :=
  (hinv.handles (hinv.bound (by rw [hm]; simp))).alive h (hinv.pending_unregister hm)

/-- What is left to unregister depends on the pending handles only. -/
theorem Handles.congr (hh : Handles n s) (hinst : s'.instances = s.instances)
    (hnext : s'.next = s.next) (hpend : ∀ h, s'.pending n h ↔ s.pending n h)
    (hold : ∀ h, s.pending n h → s'.handle h = s.handle h) : Handles n s' := by
  refine ⟨?_, ?_, ?_⟩
  · intro h hp
    have hp' := (hpend h).mp hp
    rw [hinst, hnext, hold h hp']
    exact hh.alive h hp'
  · intro h h' hp hp' heq
    rw [hold h ((hpend h).mp hp), hold h' ((hpend h').mp hp')] at heq
    exact hh.unique h h' ((hpend h).mp hp) ((hpend h').mp hp') heq
  · intro i hi hd
    rw [hnext] at hi
    rw [hinst] at hd
    obtain ⟨h, hp, heq⟩ := hh.cover i hi hd
    exact ⟨h, (hpend h).mpr hp, by rw [hold h hp, heq]⟩

/-- Moving on without changing what is left to unregister. -/
theorem Inv.setMain (h : Inv n s) {m : Main} (hn : n < 2 ^ numberBits)
    (hpend : ∀ h', ({ s with main := m } : State).pending n h' ↔ s.pending n h')
    (hreg : ∀ ins queue, m ≠ .registering ins queue)
    (hseen : ∀ h', m = .unregister h' .delete → (s.instances (s.handle h')).body = .completed)
    (htarget : ∀ ins pc, m = .unregister (.queue ins) pc →
      (s.infos ins).numQueues ≠ 0 ∧ ins < n)
    (hsize : s.size = n) : Inv n { s with main := m } := by
  exact ⟨h.flag, h.gone, hseen, fun ins queue hm => absurd hm (hreg ins queue), fun _ => hn,
    fun _ _ => hsize, htarget, fun _ => (h.handles hn).congr rfl rfl hpend fun _ _ => rfl⟩

/-- A new instance, seen from the others. -/
theorem registerPolling_of_lt {f : PollingFunction} {i : Nat} (hi : i < s.next) :
    (s.registerPolling f).instances i = s.instances i :=
  Function.update_of_ne (Nat.ne_of_lt hi) ..

theorem registerPolling_next {f : PollingFunction} :
    (s.registerPolling f).instances s.next = .new f :=
  Function.update_self ..

/-- Registering an instance under a new handle `h₀`. -/
theorem Handles.register {f : PollingFunction} (hh : Handles n s) (h₀ : Handle)
    (hs' : s'.instances = (s.registerPolling f).instances) (hnext : s'.next = s.next + 1)
    (hnew : s'.handle h₀ = s.next) (hfresh : ¬ s.pending n h₀) (hpend₀ : s'.pending n h₀)
    (hpend : ∀ h, h ≠ h₀ → (s'.pending n h ↔ s.pending n h))
    (hold : ∀ h, h ≠ h₀ → s'.handle h = s.handle h) : Handles n s' := by
  -- the other handles refer to older instances
  have hlt : ∀ h, h ≠ h₀ → s'.pending n h → s'.handle h < s.next := by
    intro h hne hp
    rw [hold h hne]
    exact (hh.alive h ((hpend h hne).mp hp)).1
  refine ⟨?_, ?_, ?_⟩
  · intro h hp
    rw [hs', hnext]
    by_cases hne : h = h₀
    · subst hne
      rw [hnew, registerPolling_next]
      exact ⟨Nat.lt_succ_self _, rfl⟩
    · have hlt' := hlt h hne hp
      rw [registerPolling_of_lt hlt']
      refine ⟨by omega, ?_⟩
      rw [hold h hne]
      exact (hh.alive h ((hpend h hne).mp hp)).2
  · intro h h' hp hp' heq
    by_cases hne : h = h₀ <;> by_cases hne' : h' = h₀
    · rw [hne, hne']
    · have := hlt h' hne' hp'
      rw [hne, hnew] at heq
      omega
    · have := hlt h hne hp
      rw [hne', hnew] at heq
      omega
    · rw [hold h hne, hold h' hne'] at heq
      exact hh.unique h h' ((hpend h hne).mp hp) ((hpend h' hne').mp hp') heq
  · intro i hi hd
    rw [hnext] at hi
    by_cases hlast : i = s.next
    · exact ⟨h₀, hpend₀, by rw [hnew, hlast]⟩
    · have hi' : i < s.next := by omega
      rw [hs', registerPolling_of_lt hi'] at hd
      obtain ⟨h, hp, heq⟩ := hh.cover i hi' hd
      have hne : h ≠ h₀ := by
        rintro rfl
        exact hfresh hp
      exact ⟨h, (hpend h hne).mpr hp, by rw [hold h hne, heq]⟩

/-- Deleting the instance behind the handle `h₀`. -/
theorem Handles.delete (hh : Handles n s) (h₀ : Handle)
    (hs' : s'.instances =
      (s.modify (s.handle h₀) fun p => { p with deleted := true }).instances)
    (hnext : s'.next = s.next) (hold : ∀ h, s'.handle h = s.handle h) (hgone : ¬ s'.pending n h₀)
    (hpend : ∀ h, h ≠ h₀ → (s'.pending n h ↔ s.pending n h)) (hpend₀ : s.pending n h₀) :
    Handles n s' := by
  have hpending : ∀ h, s'.pending n h → h ≠ h₀ ∧ s.pending n h := by
    intro h hp
    have hne : h ≠ h₀ := by
      rintro rfl
      exact hgone hp
    exact ⟨hne, (hpend h hne).mp hp⟩
  refine ⟨?_, ?_, ?_⟩
  · intro h hp
    obtain ⟨hne, hp'⟩ := hpending h hp
    have hother : s.handle h ≠ s.handle h₀ := fun heq => hne (hh.unique h h₀ hp' hpend₀ heq)
    rw [hs', hnext, hold, modify_of_ne _ hother]
    exact hh.alive h hp'
  · intro h h' hp hp' heq
    rw [hold, hold] at heq
    exact hh.unique h h' (hpending h hp).2 (hpending h' hp').2 heq
  · intro i hi hd
    rw [hnext] at hi
    by_cases heq : i = s.handle h₀
    · rw [hs', heq, modify_self] at hd
      cases hd
    · rw [hs', modify_of_ne _ heq] at hd
      obtain ⟨h, hp, hi'⟩ := hh.cover i hi hd
      have hne : h ≠ h₀ := by
        rintro rfl
        exact heq hi'.symm
      exact ⟨h, (hpend h hne).mpr hp, by rw [hold, hi']⟩

/-- Registering keeps the flags of all the instances in order. -/
theorem Inv.register_flags (h : Inv n s) (f : PollingFunction) {i : Nat} (hi : i < s.next + 1) :
    (((s.registerPolling f).instances i).finished = true ↔
      ((s.registerPolling f).instances i).body = .completed) ∧
    (((s.registerPolling f).instances i).deleted = true →
      ((s.registerPolling f).instances i).body = .completed) := by
  by_cases hlast : i = s.next
  · subst hlast
    rw [registerPolling_next]
    exact ⟨by simp [PollingInstance.new], by simp [PollingInstance.new]⟩
  · have hi' : i < s.next := by omega
    rw [registerPolling_of_lt hi']
    exact ⟨h.flag i hi', h.gone i hi'⟩

theorem inv_registerQueue (h : Inv n s) {ins queue : Nat} (hm : s.main = .registering ins queue)
    (hins : ins < n) (hq : 0 < instanceQueues cfg.maxQueues n ins) :
    Inv n { s.registerPolling (.pollQueues ins) with
      infos := Function.update s.infos ins ⟨queue, instanceQueues cfg.maxQueues n ins, s.next⟩
      main := .registering ((ins + 1) % 2 ^ numberBits)
        ((queue + instanceQueues cfg.maxQueues n ins) % 2 ^ cfg.queueBits) } := by
  obtain ⟨hlt, hle, hnone⟩ := h.loop ins queue hm
  refine ⟨fun i hi => (h.register_flags _ hi).1, fun i hi => (h.register_flags _ hi).2, ?_, ?_, ?_,
    ?_, ?_, fun hn => ?_⟩
  · intro h' hm'
    cases hm'
  · intro ins' queue' hm'
    obtain ⟨rfl, rfl⟩ := Main.registering.inj hm'
    refine ⟨Nat.mod_lt _ (Nat.two_pow_pos _), fun hn => ?_, fun i hi => ?_⟩
    · exact Nat.le_trans (Nat.mod_le _ _) hins
    · show ((s.registerPolling (.pollQueues ins)).instances i).deleted = false
      by_cases hlast : i = s.next
      · subst hlast
        rw [registerPolling_next]
        rfl
      · have hi' : i < s.next := by
          have : i < s.next + 1 := hi
          omega
        rw [registerPolling_of_lt hi']
        exact hnone i hi'
  · intro hm'
    exact absurd rfl (hm' _ _)
  · intro _ _
    exact h.size (by rw [hm]; simp) (by rw [hm]; simp)
  · intro ins' pc hm'
    cases hm'
  · have hwrap : (ins + 1) % 2 ^ numberBits = ins + 1 := Nat.mod_eq_of_lt (by omega)
    refine (h.handles hn).register (f := .pollQueues ins) (.queue ins) rfl rfl ?_ ?_ ?_ ?_ ?_
    · show (Function.update s.infos ins _ ins).pollingInstance = s.next
      rw [Function.update_self]
    · rintro ⟨-, -, hlast⟩
      rw [hm] at hlast
      exact absurd hlast (Nat.lt_irrefl _)
    · refine ⟨?_, Nat.zero_le _, ?_⟩
      · show (Function.update s.infos ins _ ins).numQueues ≠ 0
        rw [Function.update_self]
        exact Nat.pos_iff_ne_zero.mp hq
      · show ins < (ins + 1) % 2 ^ numberBits
        omega
    · intro h' hne
      cases h' with
      | queue j =>
        have hj : j ≠ ins := fun heq => hne (by rw [heq])
        show ((Function.update s.infos ins _ j).numQueues ≠ 0 ∧ 0 ≤ j ∧
          j < (ins + 1) % 2 ^ numberBits) ↔ ((s.infos j).numQueues ≠ 0 ∧ s.main.first ≤ j ∧
            j < s.main.last n)
        rw [Function.update_of_ne hj, hm, hwrap]
        show _ ↔ ((s.infos j).numQueues ≠ 0 ∧ 0 ≤ j ∧ j < ins)
        have : j < ins + 1 ↔ j < ins := by omega
        rw [this]
      | notifications =>
        show False ↔ s.main.armed
        rw [hm]
        exact Iff.rfl
    · intro h' hne
      cases h' with
      | queue j =>
        have hj : j ≠ ins := fun heq => hne (by rw [heq])
        show (Function.update s.infos ins _ j).pollingInstance = (s.infos j).pollingInstance
        rw [Function.update_of_ne hj]
      | notifications => rfl

theorem inv_registerNone (h : Inv n s) {ins queue : Nat} (hm : s.main = .registering ins queue)
    (hins : ins < n) (hq : ¬ 0 < instanceQueues cfg.maxQueues n ins) :
    Inv n { s with
      infos := Function.update s.infos ins
        { s.infos ins with numQueues := instanceQueues cfg.maxQueues n ins }
      main := .registering ((ins + 1) % 2 ^ numberBits) queue } := by
  obtain ⟨hlt, hle, hnone⟩ := h.loop ins queue hm
  refine ⟨h.flag, h.gone, ?_, ?_, ?_, ?_, ?_, fun hn => ?_⟩
  · intro h' hm'
    cases hm'
  · intro ins' queue' hm'
    obtain ⟨rfl, rfl⟩ := Main.registering.inj hm'
    exact ⟨Nat.mod_lt _ (Nat.two_pow_pos _), fun _ => Nat.le_trans (Nat.mod_le _ _) hins, hnone⟩
  · intro hm'
    exact absurd rfl (hm' _ _)
  · intro _ _
    exact h.size (by rw [hm]; simp) (by rw [hm]; simp)
  · intro ins' pc hm'
    cases hm'
  · have hwrap : (ins + 1) % 2 ^ numberBits = ins + 1 := Nat.mod_eq_of_lt (by omega)
    have hzero : instanceQueues cfg.maxQueues n ins = 0 := by omega
    refine (h.handles hn).congr rfl rfl (fun h' => ?_) fun h' hp => ?_
    · cases h' with
      | queue j =>
        show ((Function.update s.infos ins _ j).numQueues ≠ 0 ∧ 0 ≤ j ∧
          j < (ins + 1) % 2 ^ numberBits) ↔ ((s.infos j).numQueues ≠ 0 ∧ s.main.first ≤ j ∧
            j < s.main.last n)
        rw [hm, hwrap]
        show _ ↔ ((s.infos j).numQueues ≠ 0 ∧ 0 ≤ j ∧ j < ins)
        by_cases hj : j = ins
        · subst hj
          rw [Function.update_self, hzero]
          simp
        · rw [Function.update_of_ne hj]
          have : j < ins + 1 ↔ j < ins := by omega
          rw [this]
      | notifications =>
        show False ↔ s.main.armed
        rw [hm]
        exact Iff.rfl
    · cases h' with
      | queue j =>
        have hj : j ≠ ins := by
          rintro rfl
          have := hp.2.2
          rw [hm] at this
          exact absurd this (Nat.lt_irrefl _)
        show (Function.update s.infos ins _ j).pollingInstance = (s.infos j).pollingInstance
        rw [Function.update_of_ne hj]
      | notifications => rfl

theorem inv_registerNotifications (h : Inv n s) (hm : s.main = .registerNotifications) :
    Inv n { s.registerPolling .pollNotifications with
      notificationsPollingInstance := s.next, main := .ready } := by
  have hn : n < 2 ^ numberBits := h.bound (by rw [hm]; simp)
  refine ⟨fun i hi => (h.register_flags _ hi).1, fun i hi => (h.register_flags _ hi).2, ?_, ?_,
    fun _ => hn, ?_, ?_, fun _ => ?_⟩
  · intro h' hm'
    cases hm'
  · intro ins queue hm'
    cases hm'
  · intro _ _
    exact h.size (by rw [hm]; simp) (by rw [hm]; simp)
  · intro ins pc hm'
    cases hm'
  · refine (h.handles hn).register (f := .pollNotifications) .notifications rfl rfl rfl
      ?_ trivial ?_ ?_
    · intro hp
      have hp' : s.main.armed := hp
      rw [hm] at hp'
      exact hp'
    · intro h' hne
      cases h' with
      | queue j =>
        show ((s.infos j).numQueues ≠ 0 ∧ 0 ≤ j ∧ j < n) ↔
          ((s.infos j).numQueues ≠ 0 ∧ s.main.first ≤ j ∧ j < s.main.last n)
        rw [hm]
        exact Iff.rfl
      | notifications => exact absurd rfl hne
    · intro h' hne
      cases h' with
      | queue j => rfl
      | notifications => exact absurd rfl hne

theorem inv_delete (h : Inv n s) {h₀ : Handle} (hm : s.main = .unregister h₀ .delete) :
    Inv n { s.modify (s.handle h₀) fun p => { p with deleted := true } with
      main := h₀.after } := by
  have hn : n < 2 ^ numberBits := h.bound (by rw [hm]; simp)
  have hpend₀ := h.pending_unregister hm
  have hbody := h.seen h₀ hm
  have hsize := h.size (by rw [hm]; simp) (by rw [hm]; simp)
  have hbodies : ∀ i, ((s.modify (s.handle h₀) fun p => { p with deleted := true }).instances
      i).body = (s.instances i).body ∧
      ((s.modify (s.handle h₀) fun p => { p with deleted := true }).instances i).finished =
        (s.instances i).finished := by
    intro i
    by_cases hi : i = s.handle h₀
    · subst hi
      rw [modify_self]
      exact ⟨rfl, rfl⟩
    · rw [modify_of_ne _ hi]
      exact ⟨rfl, rfl⟩
  refine ⟨?_, ?_, ?_, ?_, fun _ => hn, fun _ _ => hsize, ?_, fun _ => ?_⟩
  · intro i hi
    rw [(hbodies i).1, (hbodies i).2]
    exact h.flag i hi
  · intro i hi hd
    rw [(hbodies i).1]
    by_cases heq : i = s.handle h₀
    · rw [heq]
      exact hbody
    · have hd' : ((s.modify (s.handle h₀) fun p => { p with deleted := true }).instances
          i).deleted = true := hd
      rw [modify_of_ne _ heq] at hd'
      exact h.gone i hi hd'
  · intro h' hm'
    cases h₀ <;> cases hm'
  · intro ins queue hm'
    cases h₀ <;> cases hm'
  · intro ins pc hm'
    cases h₀ <;> cases hm'
  · refine (h.handles hn).delete h₀ rfl rfl (fun _ => rfl) ?_ ?_ hpend₀
    · intro hp
      cases h₀ with
      | queue ins => exact absurd hp.2.1 (Nat.not_succ_le_self ins)
      | notifications => exact hp
    · intro h' hne
      cases h₀ with
      | queue ins =>
        cases h' with
        | queue j =>
          have hj : j ≠ ins := fun heq => hne (by rw [heq])
          show ((s.infos j).numQueues ≠ 0 ∧ ins + 1 ≤ j ∧ j < n) ↔
            ((s.infos j).numQueues ≠ 0 ∧ s.main.first ≤ j ∧ j < s.main.last n)
          rw [hm]
          show _ ↔ ((s.infos j).numQueues ≠ 0 ∧ ins ≤ j ∧ j < n)
          have : ins + 1 ≤ j ↔ ins ≤ j := by omega
          rw [this]
        | notifications =>
          show True ↔ s.main.armed
          rw [hm]
          exact Iff.rfl
      | notifications =>
        cases h' with
        | queue j =>
          show ((s.infos j).numQueues ≠ 0 ∧ 0 ≤ j ∧ j < 0) ↔
            ((s.infos j).numQueues ≠ 0 ∧ s.main.first ≤ j ∧ j < s.main.last n)
          rw [hm]
          exact Iff.rfl
        | notifications => exact absurd rfl hne

/-- Two points of the thread with the same instances left to unregister. -/
theorem pending_congr (hinfos : s'.infos = s.infos) (hfirst : s'.main.first = s.main.first)
    (hlast : s'.main.last n = s.main.last n) (harmed : s'.main.armed ↔ s.main.armed) (h : Handle) :
    s'.pending n h ↔ s.pending n h := by
  cases h with
  | queue j =>
    show ((s'.infos j).numQueues ≠ 0 ∧ s'.main.first ≤ j ∧ j < s'.main.last n) ↔ _
    rw [hinfos, hfirst, hlast]
    exact Iff.rfl
  | notifications => exact harmed

/-- Inside `unregisterPolling` nothing is taken off the list. -/
theorem pending_unregister_congr {h₀ : Handle} {pc pc' : Unregister} (hinfos : s'.infos = s.infos)
    (hm : s.main = .unregister h₀ pc) (hm' : s'.main = .unregister h₀ pc') (h : Handle) :
    s'.pending n h ↔ s.pending n h := by
  refine pending_congr hinfos ?_ ?_ ?_ h
  · rw [hm, hm']
    cases h₀ <;> rfl
  · rw [hm, hm']
    cases h₀ <;> rfl
  · rw [hm, hm']
    exact Iff.rfl

/-- Every step keeps the invariant. -/
theorem inv_step (h : Inv n s) (hs : Step cfg n s es s') : Inv n s' := by
  cases hs with
  | registerQueue hm hins hq => exact inv_registerQueue h hm hins hq
  | registerNone hm hins hq => exact inv_registerNone h hm hins hq
  | @registerEnd ins queue hm hins =>
    -- the loop has ended, so its counter has reached `n` without wrapping around
    obtain ⟨hlt, hle, -⟩ := h.loop ins queue hm
    have hn : n < 2 ^ numberBits := by omega
    have heq : ins = n := by
      have := hle hn
      omega
    refine h.setMain hn (pending_congr rfl ?_ ?_ ?_) (by simp) (by simp) (by simp)
      (h.size (by rw [hm]; simp) (by rw [hm]; simp))
    · rw [hm]
      rfl
    · rw [hm, heq]
      rfl
    · rw [hm]
      exact Iff.rfl
  | registerNotifications hm => exact inv_registerNotifications h hm
  | finalize hm =>
    exact h.setMain (h.bound (by rw [hm]; simp))
      (pending_congr rfl (by rw [hm]; rfl) (by rw [hm]; rfl) (by rw [hm]; exact Iff.rfl))
      (by simp) (by simp) (by simp) (h.size (by rw [hm]; simp) (by rw [hm]; simp))
  | @finalizeNone ins hm hins hq =>
    refine h.setMain (h.bound (by rw [hm]; simp)) (fun h' => ?_) (by simp) (by simp) (by simp)
      (h.size (by rw [hm]; simp) (by rw [hm]; simp))
    cases h' with
    | queue j =>
      show ((s.infos j).numQueues ≠ 0 ∧ ins + 1 ≤ j ∧ j < n) ↔
        ((s.infos j).numQueues ≠ 0 ∧ s.main.first ≤ j ∧ j < s.main.last n)
      rw [hm]
      show _ ↔ ((s.infos j).numQueues ≠ 0 ∧ ins ≤ j ∧ j < n)
      by_cases hj : j = ins
      · subst hj
        simp [hq]
      · have : ins + 1 ≤ j ↔ ins ≤ j := by omega
        rw [this]
    | notifications =>
      show _ ↔ s.main.armed
      rw [hm]
      exact Iff.rfl
  | @finalizeQueue ins hm hins hq =>
    have hsize := h.size (by rw [hm]; simp) (by rw [hm]; simp)
    refine h.setMain (h.bound (by rw [hm]; simp))
      (pending_congr rfl (by rw [hm]; rfl) (by rw [hm]; rfl) (by rw [hm]; exact Iff.rfl))
      (by simp) (by simp) ?_ hsize
    intro ins' pc hm'
    obtain ⟨hh, -⟩ := Main.unregister.inj hm'
    obtain rfl := Handle.queue.inj hh
    exact ⟨hq, hsize ▸ hins⟩
  | @finalizeEnd ins hm hins =>
    have hsize := h.size (by rw [hm]; simp) (by rw [hm]; simp)
    refine h.setMain (h.bound (by rw [hm]; simp)) (fun h' => ?_) (by simp) (by simp) (by simp) hsize
    cases h' with
    | queue j =>
      show ((s.infos j).numQueues ≠ 0 ∧ 0 ≤ j ∧ j < 0) ↔
        ((s.infos j).numQueues ≠ 0 ∧ s.main.first ≤ j ∧ j < s.main.last n)
      rw [hm]
      show _ ↔ ((s.infos j).numQueues ≠ 0 ∧ ins ≤ j ∧ j < n)
      constructor
      · intro hp
        exact absurd hp.2.2 (Nat.not_lt_zero _)
      · intro hp
        omega
    | notifications =>
      show _ ↔ s.main.armed
      rw [hm]
      exact Iff.rfl
  | @setMustFinish h₀ hm =>
    have hn := h.bound (by rw [hm]; simp)
    have hmod : Inv n (s.modify (s.handle h₀) fun p => { p with mustFinish := true }) :=
      h.modify (h.flag _ (h.handle_exists hm).1) rfl id
    refine hmod.setMain hn (pending_unregister_congr rfl hm rfl) (by simp) (by simp) ?_
      (h.size (by rw [hm]; simp) (by rw [hm]; simp))
    intro ins pc hm'
    obtain ⟨rfl, -⟩ := Main.unregister.inj hm'
    exact h.target ins _ hm
  | notFinished hm hfin => exact h
  | @isFinished h₀ hm hfin =>
    have hn := h.bound (by rw [hm]; simp)
    refine h.setMain hn (pending_unregister_congr rfl hm rfl) (by simp) ?_ ?_
      (h.size (by rw [hm]; simp) (by rw [hm]; simp))
    · intro h' hm'
      obtain ⟨rfl, -⟩ := Main.unregister.inj hm'
      exact (h.flag _ (h.handle_exists hm).1).mp hfin
    · intro ins pc hm'
      obtain ⟨rfl, -⟩ := Main.unregister.inj hm'
      exact h.target ins _ hm
  | delete hm => exact inv_delete h hm
  | clear hm | teardown hm =>
    have hn : n < 2 ^ numberBits := h.bound (by rw [hm]; simp)
    exact ⟨h.flag, h.gone, by simp, by simp, fun _ => hn, by simp, by simp,
      fun _ => (h.handles hn).congr rfl rfl
        (pending_congr rfl (by rw [hm]; rfl) (by rw [hm]; rfl) (by rw [hm]; exact Iff.rfl))
        fun _ _ => rfl⟩
  | testContinue hi hb hf => exact h.move hi (by rw [hb]; simp) (by simp)
  | testLeave hi hb hf => exact h.move hi (by rw [hb]; simp) (by simp)
  | call hi hb => exact h.move hi (by rw [hb]; simp) (by simp)
  | poll hi hb => exact h
  | pollReturn hi hb => exact h.move hi (by rw [hb]; simp) (by simp)
  | waited hi hb => exact h.move hi (by rw [hb]; simp) (by simp)
  | completed hi hb => exact h.modify (by simp) rfl fun _ => rfl

theorem inv_reach {tr : List Event} (h : Reach (machine cfg n) tr s) : Inv n s :=
  Reach.invariant (I := fun _ s => Inv n s) (fun _ hi => inv_init hi)
    (fun _ _ _ _ _ hinv hs => inv_step hinv hs) h

/-! ## Reading the trace -/

/-- The handle whose `unregisterPolling` has been called and has not returned. -/
def State.unregistering (s : State) (i : Nat) : Prop :=
  ∃ h pc, s.main = .unregister h pc ∧ pc ≠ .set ∧ s.handle h = i

/-- The trace tells the state: which instances were made, deleted and unregistered,
and whether the environment is gone. -/
structure Recorded (tr : List Event) (s : State) : Prop where
  registered : ∀ i, .register i ∈ tr ↔ i < s.next
  deleted : ∀ i, .delete i ∈ tr ↔ i < s.next ∧ (s.instances i).deleted = true
  unregistered : ∀ i, .unregister i ∈ tr ↔ .delete i ∈ tr ∨ s.unregistering i
  teardown : .teardown ∈ tr ↔ s.main = .freed

/-- A step that makes, deletes and unregisters nothing. -/
theorem Recorded.same {tr : List Event} (h : Recorded tr s)
    (hes : ∀ e ∈ es, ∃ i, e = .access i ∨ e = .pollStart i ∨ e = .pollStep i)
    (hnext : s'.next = s.next)
    (hdel : ∀ i, (s'.instances i).deleted = (s.instances i).deleted)
    (hun : ∀ i, s'.unregistering i ↔ s.unregistering i)
    (hfreed : s'.main = .freed ↔ s.main = .freed) : Recorded (tr ++ es) s' := by
  have hmem : ∀ e, (∀ i, e ≠ .access i ∧ e ≠ .pollStart i ∧ e ≠ .pollStep i) →
      (e ∈ tr ++ es ↔ e ∈ tr) := by
    intro e he
    rw [List.mem_append, or_iff_left]
    intro hin
    obtain ⟨i, hi | hi | hi⟩ := hes e hin
    · exact (he i).1 hi
    · exact (he i).2.1 hi
    · exact (he i).2.2 hi
  refine ⟨?_, ?_, ?_, ?_⟩
  · intro i
    rw [hmem _ (by simp), h.registered, hnext]
  · intro i
    rw [hmem _ (by simp), h.deleted, hnext, hdel]
  · intro i
    rw [hmem _ (by simp), hmem _ (by simp), h.unregistered, hun]
  · rw [hmem _ (by simp), h.teardown, hfreed]

/-- A change of one instance is not recorded unless it is deleted. -/
theorem Recorded.modify {tr : List Event} (h : Recorded tr s) {i : Nat}
    {f : PollingInstance → PollingInstance}
    (hes : ∀ e ∈ es, ∃ i, e = .access i ∨ e = .pollStart i ∨ e = .pollStep i)
    (hdel : (f (s.instances i)).deleted = (s.instances i).deleted) :
    Recorded (tr ++ es) (s.modify i f) := by
  refine h.same hes rfl (fun j => ?_) (fun _ => Iff.rfl) Iff.rfl
  by_cases hj : j = i
  · subst hj
    rw [modify_self, hdel]
  · rw [modify_of_ne f hj]

/-- Registering an instance is recorded. -/
theorem Recorded.register {tr : List Event} (h : Recorded tr s) {f : PollingFunction}
    (hinst : s'.instances = (s.registerPolling f).instances) (hnext : s'.next = s.next + 1)
    (hun : ∀ i, ¬ s.unregistering i) (hun' : ∀ i, ¬ s'.unregistering i)
    (hfreed : s.main ≠ .freed) (hfreed' : s'.main ≠ .freed) :
    Recorded (tr ++ [.register s.next]) s' := by
  refine ⟨?_, ?_, ?_, ?_⟩
  · intro i
    rw [List.mem_append, h.registered, hnext, List.mem_singleton, Event.register.injEq]
    omega
  · intro i
    rw [List.mem_append, h.deleted, hnext, hinst, List.mem_singleton]
    by_cases hi : i < s.next
    · rw [registerPolling_of_lt hi]
      simp only [hi, true_and, reduceCtorEq, or_false, Nat.lt_succ_of_lt hi]
    · by_cases hlast : i = s.next
      · subst hlast
        rw [registerPolling_next]
        simp [PollingInstance.new]
      · have : ¬ i < s.next + 1 := by omega
        simp [hi, this]
  · intro i
    have := h.unregistered i
    simp only [List.mem_append, List.mem_singleton, reduceCtorEq, or_false, hun i, hun' i] at this ⊢
    exact this
  · have := h.teardown
    simp only [List.mem_append, List.mem_singleton, reduceCtorEq, or_false, hfreed, hfreed']
      at this ⊢
    exact this

theorem not_unregistering (hm : ∀ h pc, s.main = .unregister h pc → pc = .set) (i : Nat) :
    ¬ s.unregistering i := by
  rintro ⟨h, pc, heq, hpc, -⟩
  exact hpc (hm h pc heq)

theorem unregistering_iff {h : Handle} {pc : Unregister} (hm : s.main = .unregister h pc)
    (hpc : pc ≠ .set) (i : Nat) : s.unregistering i ↔ s.handle h = i := by
  constructor
  · rintro ⟨h', pc', heq, -, hi⟩
    obtain ⟨rfl, -⟩ := Main.unregister.inj (hm.symm.trans heq)
    exact hi
  · exact fun hi => ⟨h, pc, hm, hpc, hi⟩

/-- A step of the thread outside `unregisterPolling`. -/
theorem Recorded.setMain {tr : List Event} (h : Recorded tr s) (hinst : s'.instances = s.instances)
    (hnext : s'.next = s.next) (hm : ∀ h pc, s.main = .unregister h pc → pc = .set)
    (hm' : ∀ h pc, s'.main = .unregister h pc → pc = .set)
    (hfreed : s.main ≠ .freed) (hfreed' : s'.main ≠ .freed) : Recorded (tr ++ []) s' := by
  refine h.same (by simp) hnext (fun i => by rw [hinst]) (fun i => ?_)
    (iff_of_false hfreed' hfreed)
  exact iff_of_false (not_unregistering hm' i) (not_unregistering hm i)

/-- The call of `unregisterPolling` is recorded. -/
theorem Recorded.setMustFinish {tr : List Event} (h : Recorded tr s) {h₀ : Handle}
    (hm : s.main = .unregister h₀ .set) :
    Recorded (tr ++ [.unregister (s.handle h₀), .access (s.handle h₀)])
      { s.modify (s.handle h₀) fun p => { p with mustFinish := true } with
        main := .unregister h₀ .read } := by
  have hmod : Recorded (tr ++ [])
      (s.modify (s.handle h₀) fun p => { p with mustFinish := true }) :=
    h.modify (by simp) rfl
  rw [List.append_nil] at hmod
  refine ⟨?_, ?_, ?_, ?_⟩
  · intro i
    simpa using hmod.registered i
  · intro i
    simpa using hmod.deleted i
  · intro i
    have hold := h.unregistered i
    rw [or_iff_left (not_unregistering (by simp [hm]) i)] at hold
    rw [unregistering_iff rfl (by simp)]
    show _ ↔ _ ∨ s.handle h₀ = i
    simp only [List.mem_append, hold, List.mem_cons, Event.unregister.injEq, reduceCtorEq,
      List.not_mem_nil, or_false]
    rw [eq_comm (a := i)]
  · have := h.teardown
    simpa [hm] using this

/-- Deleting an instance is recorded. -/
theorem Recorded.delete {tr : List Event} (h : Recorded tr s) {h₀ : Handle}
    (hm : s.main = .unregister h₀ .delete) (hlt : s.handle h₀ < s.next) :
    Recorded (tr ++ [.access (s.handle h₀), .delete (s.handle h₀)])
      { s.modify (s.handle h₀) fun p => { p with deleted := true } with main := h₀.after } := by
  refine ⟨?_, ?_, ?_, ?_⟩
  · intro i
    simpa using h.registered i
  · intro i
    have hold := h.deleted i
    show _ ↔ i < s.next ∧ ((s.modify (s.handle h₀) fun p =>
      { p with deleted := true }).instances i).deleted = true
    by_cases hi : i = s.handle h₀
    · subst hi
      rw [modify_self]
      simp [hlt]
    · rw [modify_of_ne _ hi]
      simp [hold, hi]
  · intro i
    have hold := h.unregistered i
    rw [unregistering_iff hm (by simp)] at hold
    rw [or_iff_left (not_unregistering (by cases h₀ <;> simp [Handle.after]) i)]
    simp only [List.mem_append, hold, List.mem_cons, Event.delete.injEq, reduceCtorEq,
      List.not_mem_nil, or_false, false_or]
    rw [eq_comm (a := i)]
  · have := h.teardown
    cases h₀ <;> simpa [hm, Handle.after] using this

/-- The end of the environment is recorded. -/
theorem Recorded.tearDown {tr : List Event} (h : Recorded tr s) (hm : s.main = .teardown) :
    Recorded (tr ++ [.teardown]) { s with main := .freed } := by
  refine ⟨?_, ?_, ?_, ?_⟩
  · intro i
    simpa using h.registered i
  · intro i
    simpa using h.deleted i
  · intro i
    have hold := h.unregistered i
    rw [or_iff_left (not_unregistering (by simp [hm]) i)] at hold
    rw [or_iff_left (not_unregistering (by simp) i)]
    simpa using hold
  · simp

/-- The trace tells the state, after every step. -/
theorem recorded_step {tr : List Event} (hinv : Inv n s) (h : Recorded tr s)
    (hs : Step cfg n s es s') : Recorded (tr ++ es) s' := by
  cases hs with
  | registerQueue hm hins hq =>
    exact h.register rfl rfl (not_unregistering (by simp [hm])) (not_unregistering (by simp))
      (by simp [hm]) (by simp)
  | registerNone hm hins hq =>
    exact h.setMain rfl rfl (by simp [hm]) (by simp) (by simp [hm]) (by simp)
  | registerEnd hm hins =>
    exact h.setMain rfl rfl (by simp [hm]) (by simp) (by simp [hm]) (by simp)
  | registerNotifications hm =>
    exact h.register rfl rfl (not_unregistering (by simp [hm])) (not_unregistering (by simp))
      (by simp [hm]) (by simp)
  | finalize hm => exact h.setMain rfl rfl (by simp [hm]) (by simp) (by simp [hm]) (by simp)
  | finalizeNone hm hins hq =>
    exact h.setMain rfl rfl (by simp [hm]) (by simp) (by simp [hm]) (by simp)
  | finalizeQueue hm hins hq =>
    exact h.setMain rfl rfl (by simp [hm]) (by simp) (by simp [hm]) (by simp)
  | finalizeEnd hm hins =>
    exact h.setMain rfl rfl (by simp [hm]) (by simp) (by simp [hm]) (by simp)
  | setMustFinish hm => exact h.setMustFinish hm
  | notFinished hm hfin =>
    exact h.same (by simp) rfl (fun _ => rfl) (fun _ => Iff.rfl) Iff.rfl
  | @isFinished h₀ hm hfin =>
    refine h.same (by simp) rfl (fun _ => rfl) (fun i => ?_) (by simp [hm])
    rw [unregistering_iff rfl (by simp), unregistering_iff hm (by simp)]
    exact Iff.rfl
  | delete hm => exact h.delete hm (hinv.handle_exists hm).1
  | clear hm => exact h.setMain rfl rfl (by simp [hm]) (by simp) (by simp [hm]) (by simp)
  | teardown hm => exact h.tearDown hm
  | testContinue hi hb hf => exact h.modify (by simp) rfl
  | testLeave hi hb hf => exact h.modify (by simp) rfl
  | call hi hb => exact h.modify (by simp) rfl
  | poll hi hb => exact h.same (by simp) rfl (fun _ => rfl) (fun _ => Iff.rfl) Iff.rfl
  | pollReturn hi hb => exact h.modify (by simp) rfl
  | waited hi hb => exact h.modify (by simp) rfl
  | completed hi hb => exact h.modify (by simp) rfl

theorem recorded_reach {tr : List Event} (h : Reach (machine cfg n) tr s) : Recorded tr s := by
  refine Reach.invariant (I := fun tr s => Recorded tr s) ?_ ?_ h
  · intro s hs
    have hnext := hs.next
    have hmain := hs.main
    refine ⟨by simp [hnext], by simp [hnext], ?_, by simp [hmain]⟩
    intro i
    rw [or_iff_right (by simp)]
    exact iff_of_false (by simp) (not_unregistering (by simp [hmain]) i)
  · intro tr es s s' hr hrec hs
    exact recorded_step (inv_reach hr) hrec hs

/-! ## The handshake -/

/-- What the order of the events must be: an instance is not touched after its
deletion, is polled only until then and until the environment is freed, is
unregistered once and only if it was registered; and the environment is freed when
all the registered instances have been unregistered. -/
def HandshakeOrder (pre : List Event) : Event → Prop
  | .register i => .register i ∉ pre
  | .access i => .register i ∈ pre ∧ .delete i ∉ pre
  | .pollStart i => .delete i ∉ pre ∧ .teardown ∉ pre
  | .pollStep i => .delete i ∉ pre ∧ .teardown ∉ pre
  | .unregister i => .register i ∈ pre ∧ .unregister i ∉ pre
  | .delete i => .unregister i ∈ pre ∧ .delete i ∉ pre
  | .teardown => ∀ i, .register i ∈ pre ↔ .delete i ∈ pre

/-- An instance with a running task: it exists, and so does the environment. -/
theorem Inv.task_alive {tr : List Event} (h : Inv n s) (hrec : Recorded tr s) {i : Nat}
    (hi : i < s.next) (hbody : (s.instances i).body ≠ .completed) :
    .register i ∈ tr ∧ .delete i ∉ tr ∧ .teardown ∉ tr := by
  have hd := h.not_deleted hi hbody
  refine ⟨(hrec.registered i).mpr hi, fun hmem => ?_, fun hmem => ?_⟩
  · have := ((hrec.deleted i).mp hmem).2
    rw [hd] at this
    cases this
  · have := h.all_deleted (Or.inr (Or.inr (hrec.teardown.mp hmem))) hi
    rw [hd] at this
    cases this

/-- The instance that is being unregistered has been registered and not deleted. -/
theorem Inv.handle_alive {tr : List Event} (h : Inv n s) (hrec : Recorded tr s) {h₀ : Handle}
    {pc : Unregister} (hm : s.main = .unregister h₀ pc) :
    .register (s.handle h₀) ∈ tr ∧ .delete (s.handle h₀) ∉ tr := by
  obtain ⟨hlt, hd⟩ := h.handle_exists hm
  refine ⟨(hrec.registered _).mpr hlt, fun hmem => ?_⟩
  have := ((hrec.deleted _).mp hmem).2
  rw [hd] at this
  cases this

theorem handshake_step {tr : List Event} (h : Inv n s) (hrec : Recorded tr s)
    (hc : Causal HandshakeOrder tr) (hs : Step cfg n s es s') :
    Causal HandshakeOrder (tr ++ es) := by
  have hnew : .register s.next ∉ tr := fun hmem =>
    absurd ((hrec.registered _).mp hmem) (Nat.lt_irrefl _)
  cases hs with
  | registerQueue hm hins hq => exact hc.snoc hnew
  | registerNotifications hm => exact hc.snoc hnew
  | @setMustFinish h₀ hm =>
    obtain ⟨hreg, hdel⟩ := h.handle_alive hrec hm
    have hun : .unregister (s.handle h₀) ∉ tr := by
      intro hmem
      rcases (hrec.unregistered _).mp hmem with hmem | hmem
      · exact hdel hmem
      · exact not_unregistering (by simp [hm]) _ hmem
    have hcalled : Causal HandshakeOrder (tr ++ [.unregister (s.handle h₀)]) :=
      hc.snoc ⟨hreg, hun⟩
    rw [List.append_cons]
    refine hcalled.snoc ⟨List.mem_append_left _ hreg, ?_⟩
    simpa using hdel
  | notFinished hm hfin => exact hc.snoc (h.handle_alive hrec hm)
  | isFinished hm hfin => exact hc.snoc (h.handle_alive hrec hm)
  | @delete h₀ hm =>
    obtain ⟨hreg, hdel⟩ := h.handle_alive hrec hm
    have hun : .unregister (s.handle h₀) ∈ tr :=
      (hrec.unregistered _).mpr (Or.inr ⟨h₀, .delete, hm, by simp, rfl⟩)
    have haccess : Causal HandshakeOrder (tr ++ [.access (s.handle h₀)]) := hc.snoc ⟨hreg, hdel⟩
    rw [List.append_cons]
    refine haccess.snoc ⟨List.mem_append_left _ hun, ?_⟩
    simpa using hdel
  | teardown hm =>
    refine hc.snoc fun i => ?_
    rw [hrec.registered, hrec.deleted]
    exact ⟨fun hi => ⟨hi, h.all_deleted (Or.inr (Or.inl hm)) hi⟩, fun hi => hi.1⟩
  | testContinue hi hb hf =>
    obtain ⟨hreg, hdel, -⟩ := h.task_alive hrec hi (by rw [hb]; simp)
    exact hc.snoc ⟨hreg, hdel⟩
  | testLeave hi hb hf =>
    obtain ⟨hreg, hdel, -⟩ := h.task_alive hrec hi (by rw [hb]; simp)
    exact hc.snoc ⟨hreg, hdel⟩
  | @call i hi hb =>
    obtain ⟨hreg, hdel, htear⟩ := h.task_alive hrec hi (by rw [hb]; simp)
    have haccess : Causal HandshakeOrder (tr ++ [.access i]) := hc.snoc ⟨hreg, hdel⟩
    rw [List.append_cons]
    refine haccess.snoc ⟨?_, ?_⟩
    · simpa using hdel
    · simpa using htear
  | poll hi hb =>
    obtain ⟨-, hdel, htear⟩ := h.task_alive hrec hi (by rw [hb]; simp)
    exact hc.snoc ⟨hdel, htear⟩
  | completed hi hb =>
    obtain ⟨hreg, hdel, -⟩ := h.task_alive hrec hi (by rw [hb]; simp)
    exact hc.snoc ⟨hreg, hdel⟩
  | _ =>
    rw [List.append_nil]
    exact hc

/-- **Polling stops before teardown.** For any number `n` of queue polling instances
asked for and in every run:

- no field of a deleted instance is read or written, and no polling function is
  called or running for an instance whose `unregisterPolling` has returned;
- `unregisterPolling` is called once on each instance that was registered, and on
  no other;
- the polling functions take no step once the environment is being freed. -/
theorem polling_stops_before_teardown {tr : List Event} {s : State}
    (h : Reach (machine cfg n) tr s) :
    Causal HandshakeOrder tr ∧
    (∀ i, .delete i ∈ tr → (s.instances i).body = .completed) ∧
    (.teardown ∈ tr → ∀ i, i < s.next → (s.instances i).body = .completed) := by
  have hinv := inv_reach h
  have hrec := recorded_reach h
  refine ⟨?_, ?_, ?_⟩
  · refine Reach.invariant (I := fun tr _ => Causal HandshakeOrder tr) (fun _ _ => Causal.nil) ?_ h
    intro tr es s s' hr hc hs
    exact handshake_step (inv_reach hr) (recorded_reach hr) hc hs
  · intro i hmem
    obtain ⟨hi, hd⟩ := (hrec.deleted i).mp hmem
    exact hinv.gone i hi hd
  · intro hmem i hi
    exact hinv.gone i hi (hinv.all_deleted (Or.inr (Or.inr (hrec.teardown.mp hmem))) hi)

end Invariant

/-- The library as `Polling::initialize` finds it. -/
def State.fresh (n : Nat) : State :=
  ⟨.registering 0 0, n, fun _ => ⟨0, 0, 0⟩, 0, fun _ => .new .pollNotifications, 0⟩

/-- An instance that is about to test its flag is unregistered, and nothing else changes. -/
theorem after_unregister {cfg : Limits} {n : Nat} {es : List Event} {s₀ s : State}
    (hr : Reach ((machine cfg n).after s₀) es s) {h₀ : Handle} (hm : s.main = .unregister h₀ .set)
    (hlt : s.handle h₀ < s.next) (hbody : (s.instances (s.handle h₀)).body = .test) :
    ∃ es' s', Reach ((machine cfg n).after s₀) es' s' ∧ s'.main = h₀.after ∧ s'.size = s.size ∧
      s'.handle = s.handle ∧ s'.next = s.next ∧
      ∀ i ≠ s.handle h₀, s'.instances i = s.instances i := by
  have h₁ := hr.step (Step.setMustFinish hm)
  have h₂ := h₁.step (Step.testLeave (i := s.handle h₀) hlt (by simpa using hbody) (by simp))
  have h₃ := h₂.step (Step.completed (i := s.handle h₀) hlt (by simp))
  have h₄ := h₃.step (Step.isFinished (h := h₀) rfl (congrArg _ (modify_self _ _)))
  have h₅ := h₄.step (Step.delete (h := h₀) rfl)
  refine ⟨_, _, h₅, rfl, rfl, rfl, rfl, fun i hi => ?_⟩
  exact (Function.update_of_ne hi ..).trans ((Function.update_of_ne hi ..).trans
    ((Function.update_of_ne hi ..).trans (Function.update_of_ne hi ..)))

/-- One queue and one checker. The notifications poller is in its polling function when
`Polling::finalize` is called; it returns from it, both instances are unregistered, and the
environment is freed. -/
theorem one_checker :
    ∃ tr s es s', Reach (machine ⟨1, 1, 8, 8⟩ 1) tr s ∧ s.main = .finalizing 0 ∧
      (s.instances 1).body = .running ∧ .pollStart 1 ∈ tr ∧ .pollStep 1 ∈ tr ∧
      Reach ((machine ⟨1, 1, 8, 8⟩ 1).after s) es s' ∧ s'.main = .freed ∧ s'.next = 2 ∧
      .teardown ∈ es := by
  have h₀ : Reach (machine ⟨1, 1, 8, 8⟩ 1) [] (State.fresh 1) := .init ⟨rfl, rfl, rfl⟩
  have h₁ := h₀.step (Step.registerQueue rfl (by decide) (by decide))
  have h₂ := h₁.step (Step.registerEnd rfl (by decide))
  have h₃ := h₂.step (Step.registerNotifications rfl)
  have h₄ := h₃.step (Step.testContinue (i := 1) (by decide) rfl rfl)
  have h₅ := h₄.step (Step.call (i := 1) (by decide) rfl)
  have h₆ := h₅.step (Step.poll (i := 1) (by decide) rfl)
  have h₇ := h₆.step (Step.finalize rfl)
  have k₁ := h₇.stay.step (Step.pollReturn (i := 1) (by decide) rfl)
  have k₂ := k₁.step (Step.waited (i := 1) (by decide) rfl)
  have k₃ := k₂.step (Step.finalizeQueue rfl (by decide) (by decide))
  obtain ⟨es₄, s₄, k₄, hmain₄, hsize₄, hhandle₄, hnext₄, hinst₄⟩ :=
    after_unregister k₃ rfl (by decide) (by rfl)
  have k₅ := k₄.step (Step.finalizeEnd hmain₄ (by rw [hsize₄]; decide))
  have hhandle₅ : s₄.handle .notifications = 1 := by
    rw [hhandle₄]
    rfl
  obtain ⟨es₆, s₆, k₆, hmain₆, -, -, hnext₆, -⟩ := after_unregister k₅
    (show _ = Main.unregister .notifications .set from rfl)
    (by
      show s₄.handle .notifications < s₄.next
      rw [hhandle₅, hnext₄]
      decide)
    (by
      show (s₄.instances (s₄.handle .notifications)).body = .test
      rw [hhandle₅, hinst₄ 1 (by decide)]
      rfl)
  have k₇ := k₆.step (Step.clear hmain₆)
  have k₈ := k₇.step (Step.teardown rfl)
  refine ⟨_, _, _, _, h₇, rfl, rfl, by simp, by simp, k₈, rfl, hnext₆.trans hnext₄, ?_⟩
  exact List.mem_append_right _ (List.mem_singleton.mpr rfl)

/-- The checker and the notifications poller are unregistered, and no polling function runs when
the environment is freed. -/
theorem polling_stops_one_checker :
    ∃ tr s, Reach (machine ⟨1, 1, 8, 8⟩ 1) tr s ∧ .pollStart 1 ∈ tr ∧ .pollStep 1 ∈ tr ∧
      .teardown ∈ tr ∧ (s.instances 0).body = .completed ∧ (s.instances 1).body = .completed := by
  obtain ⟨tr, s, es, s', hr, -, -, hcall, hpoll, hlater, -, hnext, htear⟩ := one_checker
  have hmem : .teardown ∈ tr ++ es := List.mem_append_right _ htear
  have hdone := (polling_stops_before_teardown (hr.trans hlater)).2.2 hmem
  exact ⟨tr ++ es, s', hr.trans hlater, List.mem_append_left _ hcall, List.mem_append_left _ hpoll,
    hmem, hdone 0 (by omega), hdone 1 (by omega)⟩

end Lifecycle

end Tagaspi
