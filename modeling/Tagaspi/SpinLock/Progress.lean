import Tagaspi.Lib.Liveness
import Tagaspi.SpinLock

/-!
# Nobody waits for the spin lock forever

`spinLock_fair` says who may enter next. Here the threads are scheduled fairly: a thread
that has called `lock`, `trylock` or `unlock` goes on, and one that has got the lock gives
it back in the end. Then everybody who calls `lock` gets it (`lock_returns`).

- `Advances`: a thread goes on.
- `Ahead`: how far the lock is from a waiting ticket, and the thread that has to move next.
- `ahead_step`: no step of any thread moves the lock away, and that thread brings it nearer.
-/

namespace Tagaspi

open Lts Containers

namespace SpinLock

section Progress

variable {T : Type} {size : Nat} {tr : List (Event T)} {s s' : State T size}
  {es : List (Event T)}

/-- `Ahead ticket k u s`: the lock is `k` moves away from `ticket`, and `u` makes the next
one. -/
inductive Ahead (ticket : Nat) : Nat → T → State T size → Prop where
  /-- `u` has to call `unlock`. -/
  | held {u : T} {s : State T size} :
      s.pc u = .holding → Ahead ticket (3 * (ticket - s.next) + 1) u s
  /-- Nobody is inside, and the next ticket is the one of `u`. -/
  | free {u : T} {s : State T size} :
      (∀ v, ¬ Critical s v) → s.pc u = .spinning s.next →
      Ahead ticket (3 * (ticket - s.next) + 2) u s
  /-- `u` has to write the next ticket. -/
  | releasing {u : T} {idx : Fin size} {s : State T size} :
      s.pc u = .releasing idx → Ahead ticket (3 * (ticket - s.next) + 3) u s

/-- `t` waits with `ticket`, and the lock is on its way. -/
def Waits (t : T) (ticket : Nat) (k : Nat) (u : T) (s : State T size) : Prop :=
  s.pc t = .spinning ticket ∧ Ahead ticket k u s

theorem Ahead.congr {ticket k : Nat} {u : T} (h : Ahead ticket k u s) (hpc : s'.pc u = s.pc u)
    (hnext : s'.next = s.next) (hcrit : ∀ v, Critical s' v → Critical s v) :
    Ahead ticket k u s' := by
  cases h with
  | held hu =>
    rw [← hnext]
    exact .held (hpc.trans hu)
  | free hnone hu =>
    rw [← hnext] at hu ⊢
    exact .free (fun v hv => hnone v (hcrit v hv)) (hpc.trans hu)
  | releasing hu =>
    rw [← hnext]
    exact .releasing (hpc.trans hu)

/-- The thread that has to move next is in `lock`, in `unlock` or inside. -/
theorem Ahead.outside {ticket k : Nat} {u : T} (h : Ahead ticket k u s) :
    (s.pc u).outside = false := by
  cases h with
  | held hu | free _ hu | releasing hu =>
    rw [hu]
    rfl

variable [NeZero size]

/-- Nobody is inside: the owner of the next ticket can enter. -/
theorem Inv.ahead_free (h : Inv tr s) {t : T} {ticket : Nat} (hc : s.pc t = .spinning ticket)
    (hnone : ∀ u, ¬ Critical s u) : ∃ u, Waits t ticket (3 * (ticket - s.next) + 2) u s := by
  have ho : Owns s t ticket := .inl hc
  have hlt := h.lt_head ho
  have hle := (h.owner t ticket ho).1
  obtain ⟨u, hu⟩ := h.covered s.next (Nat.le_refl _) (by omega)
  rcases hu with hu | ⟨hu, -⟩
  · exact ⟨u, hc, .free hnone hu⟩
  · exact absurd (.inl hu) (hnone u)

/-- Whoever waits, the lock is on its way. -/
theorem Inv.ahead (h : Inv tr s) {t : T} {ticket : Nat} (hc : s.pc t = .spinning ticket) :
    ∃ k u, Waits t ticket k u s := by
  by_cases hin : ∃ u, Critical s u
  · obtain ⟨u, hu | ⟨idx, hu⟩⟩ := hin
    · exact ⟨_, u, hc, .held hu⟩
    · exact ⟨_, u, hc, .releasing hu⟩
  · exact ⟨_, h.ahead_free hc fun u hu => hin ⟨u, hu⟩⟩

variable [DecidableEq T]

/-- Thread `u` moves on, from inside a call or from the critical section. -/
def Advances (u : T) : Action (State T size) (Event T) := fun s es s' =>
  Step s es s' ∧ s.pc u ≠ .idle ∧ s'.pc u ≠ s.pc u

/-- The thread that has to move next can move. -/
theorem Inv.ahead_enabled (h : Inv tr s) {t u : T} {ticket k : Nat} (hw : Waits t ticket k u s) :
    Enabled (Advances u) s := by
  obtain ⟨-, hahead⟩ := hw
  cases hahead with
  | held hu =>
    refine ⟨_, _, .unlockNext hu, by simp [hu], ?_⟩
    show (s.goto u _).pc u ≠ _
    rw [pc_goto_self, hu]
    simp
  | free hnone hu =>
    have hslot := h.handed fun v idx hv => hnone v (.inr ⟨idx, hv⟩)
    refine ⟨_, _, .enter hu hslot, by simp [hu], ?_⟩
    rw [pc_goto_self, hu]
    simp
  | releasing hu =>
    refine ⟨_, _, .unlockStore hu, by simp [hu], ?_⟩
    show (s.goto u _).pc u ≠ _
    rw [pc_goto_self, hu]
    simp

omit [NeZero size] in
/-- A thread that is outside moves, without getting in. -/
theorem Ahead.other {ticket k : Nat} {u v : T} {c : Pc size} (h : Ahead ticket k u s)
    (hout : (s.pc v).outside = true) (hpc : s'.pc = (s.goto v c).pc) (hin : c.inside = false)
    (hnext : s'.next = s.next) :
    Ahead ticket k u s' ∧ s'.pc u = s.pc u := by
  have huv : u ≠ v := by
    rintro rfl
    rw [h.outside] at hout
    cases hout
  have hsame : s'.pc u = s.pc u := by
    rw [hpc]
    exact pc_goto_of_ne huv
  refine ⟨h.congr hsame hnext fun w hw => ?_, hsame⟩
  rw [critical_iff, hpc] at hw
  by_cases hwv : w = v
  · subst hwv
    rw [pc_goto_self, hin] at hw
    cases hw
  · rw [pc_goto_of_ne hwv] at hw
    exact critical_iff.mpr hw

/-- **What a step does while `t` waits**: `t` gets the lock, or the lock comes nearer, or it
stays where it is and the thread that has to move next has not moved. -/
theorem ahead_step (h : Inv tr s) (h' : Inv (tr ++ es) s') (hfew : s.head < 2 ^ 64) {t u : T}
    {ticket k : Nat} (hw : Waits t ticket k u s) (hs : Step s es s') :
    Event.entered t ticket ∈ es ∨ (∃ k' < k, ∃ u', Waits t ticket k' u' s') ∨
      (Waits t ticket k u s' ∧ s'.pc u = s.pc u) := by
  obtain ⟨hc, hahead⟩ := hw
  have ho : Owns s t ticket := .inl hc
  have hle := (h.owner t ticket ho).1
  have hlt := h.lt_head ho
  -- a thread that does not wait with `ticket` is not `t`
  have hstays : ∀ {v : T} {c : Pc size}, s.pc v ≠ .spinning ticket →
      (s.goto v c).pc t = .spinning ticket := by
    intro v c hv
    have htv : t ≠ v := by
      rintro rfl
      exact hv hc
    rw [pc_goto_of_ne htv]
    exact hc
  -- a thread outside does not touch what matters here
  have hother : ∀ {v : T} {c : Pc size}, (s.pc v).outside = true → s'.pc = (s.goto v c).pc →
      c.inside = false → s'.next = s.next → Waits t ticket k u s' ∧ s'.pc u = s.pc u := by
    intro v c hout hpc hin hnext
    obtain ⟨hahead', hsame⟩ := hahead.other hout hpc hin hnext
    refine ⟨⟨?_, hahead'⟩, hsame⟩
    rw [hpc]
    refine hstays fun hv => ?_
    rw [hv] at hout
    cases hout
  cases hs with
  | spin => exact .inr (.inr ⟨⟨hc, hahead⟩, rfl⟩)
  | draw hv | tryLoad hv | tryBusy hv | tryMatch hv | tryLost hv =>
    exact .inr (.inr (hother (congrArg Pc.outside hv) rfl rfl rfl))
  | tryTake hv hhead =>
    -- `_head` is beyond the ticket of `t`
    subst hhead
    obtain ⟨hnext, -⟩ := h.matched_free hv
    omega
  | @enter v head hv hslot =>
    obtain ⟨rfl, hnone⟩ := h.shown hv hslot
    by_cases hvt : v = t
    · subst hvt
      obtain rfl := Pc.spinning.inj (hc.symm.trans hv)
      exact .inl (List.mem_singleton.mpr rfl)
    · have htv : (s.goto v .holding).pc t = .spinning ticket := by
        rw [pc_goto_of_ne (Ne.symm hvt)]
        exact hc
      cases hahead with
      | held hu => exact absurd (.inl hu) (hnone u)
      | free _ hu => exact .inr (.inl ⟨_, Nat.lt_succ_self _, v, htv, .held pc_goto_self⟩)
      | releasing hu => exact absurd (.inr ⟨_, hu⟩) (hnone u)
  | @unlockNext v hv =>
    have hcrit : Critical s v := .inl hv
    -- the ticket of the holder is not the one of `t`
    have hne : ticket ≠ s.next := by
      rintro rfl
      have hvt := h.owner_unique ho (.inr ⟨hv, rfl⟩)
      rw [← hvt, hc] at hv
      cases hv
    have hnext : succSize s.next = s.next + 1 := succSize_eq (by omega)
    cases hahead with
    | held hu =>
      obtain rfl := h.critical u v (.inl hu) hcrit
      refine .inr (.inl ⟨_, ?_, u, hstays (by simp [hv]), .releasing pc_goto_self⟩)
      show 3 * (ticket - succSize s.next) + 3 < 3 * (ticket - s.next) + 1
      omega
    | free hnone hu => exact absurd hcrit (hnone v)
    | releasing hu =>
      obtain rfl := h.critical u v (.inr ⟨_, hu⟩) hcrit
      rw [hv] at hu
      cases hu
  | @unlockStore v idx hv =>
    have hcrit : Critical s v := .inr ⟨_, hv⟩
    cases hahead with
    | held hu =>
      obtain rfl := h.critical u v (.inl hu) hcrit
      rw [hv] at hu
      cases hu
    | free hnone hu => exact absurd hcrit (hnone v)
    | releasing hu =>
      obtain rfl := h.critical u v (.inr ⟨_, hu⟩) hcrit
      refine .inr (.inl ⟨_, Nat.lt_succ_self _, h'.ahead_free (hstays (by simp [hv])) ?_⟩)
      intro w hw
      by_cases hwu : w = u
      · subst hwu
        rw [critical_iff, pc_goto_self] at hw
        cases hw
      · exact hwu (h.critical w u ((critical_goto_of_ne hwu).mp hw) hcrit)

/-- The lock comes nearer to whoever waits. -/
theorem ranking (t : T) (ticket : Nat) :
    Ranking (machine T size) Advances (fun tr s => Inv tr s ∧ (drawn tr).length < 2 ^ 64)
      (fun es _ => Event.entered t ticket ∈ es) (Waits t ticket) where
  isStep _ _ _ _ h := h.1
  enabled _ _ _ _ hI hw := hI.1.ahead_enabled hw
  step tr s es s' k u hI hI' hw hs := by
    have hfew : s.head < 2 ^ 64 := by
      rw [← hI.1.length_drawn]
      exact hI.2
    rcases ahead_step hI.1 hI'.1 hfew hw hs with henter | hdrop | ⟨hsame, hpc⟩
    · exact .inl henter
    · exact .inr (.inl hdrop)
    · exact .inr (.inr ⟨hsame, fun hadv => hadv.2.2 hpc⟩)

/-- **`lock` returns**: if every thread inside a call or the critical section that can go on
does so in the end, then every thread that has drawn a ticket gets the lock, whatever the
others do and however many they are, as long as fewer than `2 ^ 64` tickets are drawn. -/
theorem lock_returns (T : Type) [DecidableEq T] (size : Nat) [NeZero size]
    (e : Execution (machine T size)) (hfair : ∀ u, e.WeaklyFair (Advances u))
    (hfew : ∀ n, (drawn (e.trace n)).length < 2 ^ 64) {t : T} {ticket n : Nat}
    (hc : (e.state n).pc t = .spinning ticket) :
    ∃ m, n ≤ m ∧ Event.entered t ticket ∈ e.events m := by
  have hI : ∀ m, n ≤ m → Inv (e.trace m) (e.state m) ∧ (drawn (e.trace m)).length < 2 ^ 64 :=
    fun m _ => ⟨inv_reach (e.reach m) (hfew m), hfew m⟩
  obtain ⟨k, u, hw⟩ := (hI n (Nat.le_refl n)).1.ahead hc
  exact (ranking t ticket).reached e hfair hI hw

/-- Thread 0 has the lock and thread 1 waits. In the fair execution that goes on with
`unlock`, thread 1 gets it. -/
theorem lock_returns_two :
    ∃ (e : Execution (machine (Fin 2) 2)) (n m : Nat), (e.state n).pc 0 = .holding ∧
      (e.state n).pc 1 = .spinning 1 ∧ n ≤ m ∧ Event.entered 1 1 ∈ e.events m := by
  have h₀ : Reach (machine (Fin 2) 2) [] .initial := Reach.init rfl
  have h₁ := h₀.step (Step.draw (t := 0) rfl)
  have h₂ := h₁.step (Step.draw (t := 1) rfl)
  have h₃ := h₂.step (Step.enter (t := 0) rfl rfl)
  have k₁ := h₃.stay.step (Step.unlockNext (t := 0) rfl)
  have k₂ := k₁.step (Step.unlockStore (t := 0) rfl)
  have k₃ := k₂.step (Step.enter (t := 1) rfl rfl)
  have k₄ := k₃.step (Step.unlockNext (t := 1) rfl)
  have k₅ := k₄.step (Step.unlockStore (t := 1) rfl)
  obtain ⟨e, n, N, -, -, hstate, hend, htrace⟩ := h₃.execution_through k₅
  have hfew : ∀ m, (drawn (e.trace m)).length < 2 ^ 64 := fun m => by
    have hle := ((hend.trace_prefix m).sublist.filterMap Event.draws).length_le
    rw [htrace] at hle
    exact Nat.lt_of_le_of_lt hle (by decide)
  have hfair : ∀ u, e.WeaklyFair (Advances u) := fun u =>
    hend.weaklyFair fun ⟨_, _, hadv⟩ => hadv.2.1 (match u with | 0 | 1 => rfl)
  have hwait : (e.state n).pc 1 = .spinning 1 := by
    rw [hstate]
    rfl
  obtain ⟨m, hm, henter⟩ := lock_returns (Fin 2) 2 e hfair hfew hwait
  exact ⟨e, n, m, by rw [hstate]; rfl, hwait, hm, henter⟩

end Progress

end SpinLock

end Tagaspi
