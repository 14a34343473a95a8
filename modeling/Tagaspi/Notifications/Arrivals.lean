import Tagaspi.Notifications.Completion
import Tagaspi.Notifications.Progress

/-!
# Notifications that arrive once

An operation waits for ids that are notified once each and that nobody else resets.
The notifications may arrive in any order: before the call, between two polls, or
while a check is running.

- `Schedule`: a run since the call of the operation, under these conditions.
- `Collecting`: the notifications of the range are on their way, pending or credited.
- `Underway`: a schedule as a run of the machine.
- `Fate`: a check that runs after the last arrival finds all of them.
-/

namespace Tagaspi

open Lts

variable {T : Type}

/-- The id was notified before the call or has been notified since. -/
def Arrived (s₀ : State T) (w : Wait) (tr : List (Event T)) (id : Nat) : Prop :=
  s₀.notifications (w.segment, id) ≠ 0 ∨ ∃ v, Event.arrive w.segment id v ∈ tr

/-- The last arrival is over. -/
def AllArrived (s₀ : State T) (w : Wait) (tr : List (Event T)) : Prop :=
  ∀ id, w.covers id → Arrived s₀ w tr id

/-- Each id of the range is notified at most once, with the value `notified id`, and no other
operation resets it. -/
def once (s₀ : State T) (w : Wait) (notified : Nat → Nat) : Guard (State T) (Event T) :=
  fun tr _ es =>
    (∀ id v, Event.arrive w.segment id v ∈ es → w.covers id →
      v = notified id ∧ ¬ Arrived s₀ w tr id) ∧
    ∀ a w' id v, Event.reset a w' id v ∈ es → w'.segment = w.segment → w.covers id → w' = w

/-- **A schedule** of the operation `w`: task `t` calls it in the reachable state `s₀`, in
which the ids of the range that are notified have their values, and the run goes on to `s`. -/
structure Schedule [DecidableEq T] (cfg : Limits) (t : T) (w : Wait) (notified : Nat → Nat)
    (s₀ : State T) (tr : List (Event T)) (s : State T) : Prop where
  reached : ∃ tr₀, Reach (machine T cfg) tr₀ s₀
  pending : ∀ id, w.covers id → s₀.notifications (w.segment, id) ≠ 0 →
    s₀.notifications (w.segment, id) = notified id
  run : ∃ s₁, Step cfg s₀ [.start t w] s₁ ∧
    ReachUnder ((machine T cfg).after s₁) (once s₀ w notified) tr s

/-! ## What has arrived is pending or credited -/

/-- **What a schedule has collected**: no id is credited twice, the ids that have arrived are
pending with their values or credited, and the id that a check is about to reset is pending. -/
structure Collecting (s₀ : State T) (w : Wait) (notified : Nat → Nat) (tr : List (Event T))
    (s : State T) : Prop where
  nodup : (credits w tr).Nodup
  taken : ∀ id ∈ credits w tr, w.covers id ∧ Arrived s₀ w tr id ∧
    s.notifications (w.segment, id) = 0
  pending : ∀ id, w.covers id → s.notifications (w.segment, id) ≠ 0 →
    Arrived s₀ w tr id ∧ s.notifications (w.segment, id) = notified id
  kept : ∀ id, w.covers id → Arrived s₀ w tr id →
    s.notifications (w.segment, id) ≠ 0 ∨ id ∈ credits w tr
  resets : ∀ a c id, s.check a = some c → c.wait = w → c.pc = .reset id →
    s.notifications (w.segment, id) ≠ 0

theorem Arrived.append {s₀ : State T} {w : Wait} {tr : List (Event T)} {id : Nat}
    (h : Arrived s₀ w tr id) (es : List (Event T)) : Arrived s₀ w (tr ++ es) id := by
  rcases h with h | ⟨v, hv⟩
  · exact Or.inl h
  · exact Or.inr ⟨v, List.mem_append_left _ hv⟩

/-- An id that has arrived now had arrived before, or has just been notified. -/
theorem Arrived.of_append {s₀ : State T} {w : Wait} {tr es : List (Event T)} {id : Nat}
    (h : Arrived s₀ w (tr ++ es) id) :
    Arrived s₀ w tr id ∨ ∃ v, Event.arrive w.segment id v ∈ es := by
  rcases h with h | ⟨v, hv⟩
  · exact Or.inl (Or.inl h)
  · rcases List.mem_append.mp hv with hv | hv
    · exact Or.inl (Or.inr ⟨v, hv⟩)
    · exact Or.inr ⟨v, hv⟩

theorem credits_of_no_reset {w : Wait} {es : List (Event T)}
    (h : ∀ e ∈ es, ∀ a w id v, e ≠ .reset a w id v) : credits w es = [] := by
  refine List.eq_nil_iff_forall_not_mem.mpr fun id hid => ?_
  obtain ⟨a, v, hmem, -⟩ := mem_credits.mp hid
  exact h _ hmem a w id v rfl

/-- Nothing of the range is touched. -/
theorem Collecting.frame {s₀ : State T} {w : Wait} {notified : Nat → Nat}
    {tr es : List (Event T)} {s s' : State T} (h : Collecting s₀ w notified tr s)
    (hnot : ∀ id, w.covers id → s'.notifications (w.segment, id) = s.notifications (w.segment, id))
    (hcred : credits w es = []) (hes : ∀ id v, w.covers id → Event.arrive w.segment id v ∉ es)
    (hchk : ∀ a c id, s'.check a = some c → c.wait = w → c.pc = .reset id →
      s'.notifications (w.segment, id) ≠ 0) : Collecting s₀ w notified (tr ++ es) s' := by
  have hcredits : credits w (tr ++ es) = credits w tr := by
    rw [credits_append, hcred, List.append_nil]
  refine ⟨?_, fun id hid => ?_, fun id hcov hval => ?_, fun id hcov harr => ?_, hchk⟩
  · rw [hcredits]
    exact h.nodup
  · rw [hcredits] at hid
    obtain ⟨hcov, harr, hz⟩ := h.taken id hid
    exact ⟨hcov, harr.append es, (hnot id hcov).trans hz⟩
  · rw [hnot id hcov] at hval ⊢
    obtain ⟨harr, hv⟩ := h.pending id hcov hval
    exact ⟨harr.append es, hv⟩
  · rw [hnot id hcov, hcredits]
    rcases harr.of_append with harr | ⟨v, hv⟩
    · exact h.kept id hcov harr
    · exact absurd hv (hes id v hcov)

section Collecting

variable [DecidableEq T] {cfg : Limits} {s₀ s s' : State T} {w : Wait} {notified : Nat → Nat}
  {tr₁ tr es : List (Event T)}

omit [DecidableEq T] in
/-- A notification of the range arrives, with its value and for the first time. -/
theorem collecting_arrive (h : Collecting s₀ w notified tr s) {g i v : Nat} (hv : v ≠ 0)
    (hnot : s'.notifications = Function.update s.notifications (g, i) v)
    (hchk : s'.check = s.check) (hguard : once s₀ w notified tr s [.arrive g i v]) :
    Collecting s₀ w notified (tr ++ [.arrive g i v]) s' := by
  have hcredits : credits w (tr ++ [.arrive g i v]) = credits w tr := by
    rw [credits_append]
    exact List.append_nil _
  -- the arrival is the one of an id of the range, or it does not matter
  have hhit : ∀ id, w.covers id →
      (w.segment = g ∧ id = i ∧ v = notified id ∧ ¬ Arrived s₀ w tr id ∧
        s'.notifications (w.segment, id) = v) ∨
      (s'.notifications (w.segment, id) = s.notifications (w.segment, id) ∧
        ∀ v', Event.arrive w.segment id v' ∉ [(Event.arrive g i v : Event T)]) := by
    intro id hcov
    by_cases hkey : (w.segment, id) = (g, i)
    · obtain ⟨rfl, rfl⟩ := Prod.mk.inj hkey
      obtain ⟨hval, hnew⟩ := hguard.1 id v (List.mem_singleton.mpr rfl) hcov
      exact Or.inl ⟨rfl, rfl, hval, hnew, by rw [hnot, Function.update_self]⟩
    · refine Or.inr ⟨by rw [hnot, Function.update_of_ne hkey], fun v' hmem => ?_⟩
      obtain ⟨hg, hi, -⟩ := Event.arrive.inj (List.mem_singleton.mp hmem)
      exact hkey (by rw [hg, hi])
  refine ⟨?_, fun id hid => ?_, fun id hcov hval => ?_, fun id hcov harr => ?_,
    fun a c id hc hw hpc => ?_⟩
  · rw [hcredits]
    exact h.nodup
  · rw [hcredits] at hid
    obtain ⟨hcov, harr, hz⟩ := h.taken id hid
    rcases hhit id hcov with ⟨-, -, -, hnew, -⟩ | ⟨heq, -⟩
    · exact absurd harr hnew
    · exact ⟨hcov, harr.append _, heq.trans hz⟩
  · rcases hhit id hcov with ⟨hg, hi, hnotified, -, heq⟩ | ⟨heq, -⟩
    · rw [heq]
      exact ⟨Or.inr ⟨v, by rw [hg, hi]; simp⟩, hnotified⟩
    · rw [heq] at hval ⊢
      obtain ⟨harr, hnotified⟩ := h.pending id hcov hval
      exact ⟨harr.append _, hnotified⟩
  · rcases hhit id hcov with ⟨-, -, -, -, heq⟩ | ⟨heq, hnone⟩
    · rw [heq]
      exact Or.inl hv
    · rw [heq, hcredits]
      rcases harr.of_append with harr | ⟨v', hv'⟩
      · exact h.kept id hcov harr
      · exact absurd hv' (hnone v')
  · rw [hchk] at hc
    have hold := h.resets a c id hc hw hpc
    rw [hnot]
    by_cases hkey : (w.segment, id) = (g, i)
    · rw [hkey, Function.update_self]
      exact hv
    · rw [Function.update_of_ne hkey]
      exact hold

/-- A reset executed for `w` credits the id that it clears. -/
theorem collecting_reset (hr : Reach (machine T cfg) (tr₁ ++ tr) s)
    (h : Collecting s₀ w notified tr s) {a : Agent T} {c : Check} {id : Nat}
    (hc : s.check a = some c) (hpc : c.pc = .reset id) (hw : c.wait = w) {v : Nat}
    (hv : s.notifications (c.wait.segment, id) = v)
    (hnot : s'.notifications = Function.update s.notifications (c.wait.segment, id) 0)
    (hchk : s'.check = Function.update s.check a (some (c.afterReset v))) :
    Collecting s₀ w notified (tr ++ .reset a c.wait id v :: c.writes id v) s' := by
  subst hw
  have hcov : c.wait.covers id := ((owned_reach hr).check_ok hc).resets id hpc
  have hpend := h.resets a c id hc rfl hpc
  have hv0 : v ≠ 0 := hv ▸ hpend
  have hnew : id ∉ credits c.wait tr := fun hid => hpend (h.taken id hid).2.2
  have hcredits : credits c.wait (tr ++ .reset a c.wait id v :: c.writes id v) =
      credits c.wait tr ++ [id] := by
    rw [credits_append, credits_reset, if_pos ⟨rfl, hv0⟩]
  have hother : ∀ {id'}, id' ≠ id → s'.notifications (c.wait.segment, id') =
      s.notifications (c.wait.segment, id') := by
    intro id' hne
    rw [hnot, Function.update_of_ne (by simpa using hne)]
  have hself : s'.notifications (c.wait.segment, id) = 0 := by rw [hnot, Function.update_self]
  refine ⟨?_, fun id' hid' => ?_, fun id' hcov' hval => ?_, fun id' hcov' harr => ?_,
    fun b c' id' hc' hw' hpc' => ?_⟩
  · rw [hcredits, List.nodup_append]
    refine ⟨h.nodup, List.nodup_singleton _, fun x hx y hy => ?_⟩
    rw [List.mem_singleton] at hy
    rintro rfl
    exact hnew (hy ▸ hx)
  · rw [hcredits, List.mem_append, List.mem_singleton] at hid'
    rcases hid' with hid' | rfl
    · obtain ⟨hcov', harr, hz⟩ := h.taken id' hid'
      have hne : id' ≠ id := fun heq => hnew (heq ▸ hid')
      exact ⟨hcov', harr.append _, (hother hne).trans hz⟩
    · exact ⟨hcov, (h.pending id' hcov hpend).1.append _, hself⟩
  · have hne : id' ≠ id := by
      rintro rfl
      exact hval hself
    rw [hother hne] at hval ⊢
    obtain ⟨harr, hnotified⟩ := h.pending id' hcov' hval
    exact ⟨harr.append _, hnotified⟩
  · rw [hcredits, List.mem_append, List.mem_singleton]
    by_cases hne : id' = id
    · exact Or.inr (Or.inr hne)
    · rw [hother hne]
      rcases harr.of_append with harr | ⟨v', hv'⟩
      · exact (h.kept id' hcov' harr).imp_right Or.inl
      · rcases mem_reset hv' with heq | heq
        · cases heq
        · cases heq
  · rcases check_update hchk hc' with ⟨rfl, rfl⟩ | ⟨hb, hc'⟩
    · exact absurd hpc' (Check.afterReset_pc c v id')
    · exact absurd (agent_unique hr hc' hc hw') hb

/-- After `gaspi_notify_waitsome` has found an id, a notified id is reset: the routine for one id
resets the only one there is. -/
theorem afterWaitsome_reset {c : Check} (hok : c.Ok) {f : Nat → Nat} {id id' : Nat}
    (hcov : c.wait.covers id) (hval : f id ≠ 0) (hpc : (c.afterWaitsome id).pc = .reset id') :
    f id' ≠ 0 := by
  unfold Check.afterWaitsome at hpc
  cases hrout : c.routine with
  | one =>
    simp only [hrout] at hpc
    have hone := hok.one hrout
    obtain ⟨hle, hlt⟩ := hcov
    obtain rfl : id = id' := by
      have := CheckPc.reset.inj hpc
      omega
    exact hval
  | many =>
    simp only [hrout] at hpc
    exact CheckPc.reset.inj hpc ▸ hval

/-- Every step of the schedule keeps what it has collected in order. -/
theorem collecting_step (hr : Reach (machine T cfg) (tr₁ ++ tr) s)
    (h : Collecting s₀ w notified tr s) (hs : Step cfg s es s')
    (hguard : once s₀ w notified tr s es) : Collecting s₀ w notified (tr ++ es) s' := by
  have hok := @Owned.check_ok _ _ (owned_reach hr)
  cases hs.checks_cases with
  | arrive hv hnot hchk => exact collecting_arrive h hv hnot hchk hguard
  | @timeout _ a c hc hpc hnone hnot hchk =>
    refine h.frame (fun id _ => by rw [hnot]) rfl (by simp) fun b c' id hc' hw hreset => ?_
    rw [hnot]
    rcases check_update hchk hc' with ⟨rfl, rfl⟩ | ⟨-, hc'⟩
    · cases hreset
    · exact h.resets b c' id hc' hw hreset
  | @waitsome _ a c id hc hpc hcov hval hnot hchk =>
    refine h.frame (fun id _ => by rw [hnot]) rfl (by simp) fun b c' id' hc' hw hreset => ?_
    rw [hnot]
    rcases check_update hchk hc' with ⟨rfl, rfl⟩ | ⟨-, hc'⟩
    · rw [Check.afterWaitsome_wait] at hw
      subst hw
      exact afterWaitsome_reset (f := fun id => s.notifications (c.wait.segment, id)) (hok hc) hcov
        hval hreset
    · exact h.resets b c' id' hc' hw hreset
  | @reset _ a c id v hc hpc hv hnot hchk =>
    by_cases hw : c.wait = w
    · exact collecting_reset hr h hc hpc hw hv hnot hchk
    · -- the ids of the range are left alone
      have hother : ∀ id', w.covers id' →
          s'.notifications (w.segment, id') = s.notifications (w.segment, id') := by
        intro id' hcov
        rw [hnot, Function.update_of_ne]
        intro hkey
        obtain ⟨hseg, rfl⟩ := Prod.mk.inj hkey
        exact hw (hguard.2 a c.wait id' v (List.mem_cons_self ..) hseg.symm hcov)
      refine h.frame hother ?_ (fun id' v' _ hmem => ?_) fun b c' id' hc' hw' hreset => ?_
      · rw [credits_reset, if_neg fun hcon => hw hcon.1]
      · rcases mem_reset hmem with heq | heq
        · cases heq
        · cases heq
      · rcases check_update hchk hc' with ⟨rfl, rfl⟩ | ⟨-, hc'⟩
        · exact absurd hreset (Check.afterReset_pc c v id')
        · rw [hother id' (hw' ▸ (hok hc').resets id' hreset)]
          exact h.resets b c' id' hc' hw' hreset
  | quiet hnot hes hmove =>
    refine h.frame (fun id _ => by rw [hnot]) (credits_of_no_reset fun e he => (hes e he).2.2)
      (fun id v _ hmem => (hes _ hmem).1 _ _ _ rfl) fun b c id hc hw hreset => ?_
    rw [hnot]
    rcases (hmove b).back hc with hc | hwait
    · exact h.resets b c id hc hw hreset
    · rw [hwait] at hreset
      cases hreset

end Collecting

/-! ## Schedules as runs of the machine -/

/-- The operation `w` was called at the end of `tr₁`, and `tr` is what has happened since. -/
structure Underway [DecidableEq T] (cfg : Limits) (s₀ : State T) (w : Wait) (notified : Nat → Nat)
    (tr₁ tr : List (Event T)) (s : State T) : Prop where
  reach : Reach (machine T cfg) (tr₁ ++ tr) s
  started : Started w tr₁
  unfinished : ¬ Completed w tr₁
  nothing : credits w tr₁ = []
  collecting : Collecting s₀ w notified tr s

theorem completed_append {w : Wait} {tr es : List (Event T)} :
    Completed w (tr ++ es) ↔ Completed w tr ∨ Completed w es := by
  unfold Completed
  simp only [List.mem_append, exists_or]
  exact or_or_or_comm

section Underway

variable [DecidableEq T] {cfg : Limits} {s₀ s₁ s s' : State T} {w : Wait} {notified : Nat → Nat}
  {tr₁ tr es : List (Event T)} {t : T}

/-- Right after the call, the notifications of the range are those that came before it. -/
theorem underway_start (hr : Reach (machine T cfg) tr₁ s₀)
    (hpend : ∀ id, w.covers id → s₀.notifications (w.segment, id) ≠ 0 →
      s₀.notifications (w.segment, id) = notified id) (hs : Step cfg s₀ [.start t w] s₁) :
    Underway cfg s₀ w notified (tr₁ ++ [.start t w]) [] s₁ := by
  have hacc := accounts_machine hr
  have hop : s₀.nextOp ≤ w.op := by
    cases live_step (owned_reach hr) hs with
    | silent _ _ he => cases he
    | start _ hw _ _ => exact Nat.le_of_eq hw.symm
    | finish _ _ _ he => cases he
  -- the operation is new
  have hnew : ∀ {e : Ledger.Event Wait Nat}, e.job = w → e ∉ tr₁.filterMap ledgerEvent :=
    fun he => hacc.no_history hop he
  have hnot : s₁.notifications = s₀.notifications ∧
      ∀ a c, s₁.check a = some c → s₀.check a = some c ∨ c.pc = .waitsome := by
    generalize hes : [Event.start t w] = es at hs
    cases hs.checks_cases with
    | quiet hnot _ hmove => exact ⟨hnot, fun a c hc => (hmove a).back hc⟩
    | _ => cases hes
  refine ⟨?_, ⟨t, by simp⟩, ?_, ?_, ⟨List.nodup_nil, ?_, ?_, ?_, ?_⟩⟩
  · rw [List.append_nil]
    exact hr.step hs
  · rw [completed_append, not_or]
    refine ⟨fun hc => hnew rfl (finish_ledger.mpr hc), ?_⟩
    simp [Completed]
  · rw [credits_append, List.append_eq_nil_iff]
    refine ⟨List.eq_nil_iff_forall_not_mem.mpr fun id hid => ?_, rfl⟩
    rw [← items_ledger, Ledger.mem_items] at hid
    exact hnew (e := .credit w id) rfl hid
  · intro id hid
    cases hid
  · intro id hcov hval
    rw [hnot.1] at hval ⊢
    exact ⟨Or.inl hval, hpend id hcov hval⟩
  · intro id _ harr
    rw [hnot.1]
    rcases harr with hval | ⟨v, hv⟩
    · exact Or.inl hval
    · cases hv
  · intro a c id hc hw hpc
    rcases hnot.2 a c hc with hc | hwait
    · obtain ⟨k, hk, -⟩ := (owned_reach hr).carrier hc
      rw [hw] at hk
      exact absurd (hacc.balance k w _ hk).1 (hnew rfl)
    · rw [hwait] at hpc
      cases hpc

theorem Underway.step (h : Underway cfg s₀ w notified tr₁ tr s) (hs : Step cfg s es s')
    (hguard : once s₀ w notified tr s es) : Underway cfg s₀ w notified tr₁ (tr ++ es) s' where
  reach := by
    rw [← List.append_assoc]
    exact h.reach.step hs
  started := h.started
  unfinished := h.unfinished
  nothing := h.nothing
  collecting := collecting_step h.reach h.collecting hs hguard

/-- The schedule goes on. -/
theorem Underway.after (h : Underway cfg s₀ w notified tr₁ tr s)
    (h' : ReachUnder ((machine T cfg).after s) ((once s₀ w notified).after tr) es s') :
    Underway cfg s₀ w notified tr₁ (tr ++ es) s' := by
  refine ReachUnder.invariant (M := (machine T cfg).after s)
    (I := fun es s' => Underway cfg s₀ w notified tr₁ (tr ++ es) s') ?_ ?_ h'
  · rintro _ rfl
    rw [List.append_nil]
    exact h
  · intro es es' s s' _ hu hs hguard
    rw [← List.append_assoc]
    exact hu.step hs hguard

/-- A schedule is a run from the call on. -/
theorem Underway.run (h : Underway cfg s₀ w notified tr₁ [] s)
    (h' : ReachUnder ((machine T cfg).after s) (once s₀ w notified) tr s') :
    Underway cfg s₀ w notified tr₁ tr s' :=
  h.after h'

theorem Schedule.underway (h : Schedule cfg t w notified s₀ tr s) :
    ∃ tr₁ s₁, Underway cfg s₀ w notified tr₁ [] s₁ ∧
      ReachUnder ((machine T cfg).after s₁) (once s₀ w notified) tr s := by
  obtain ⟨tr₀, hr⟩ := h.reached
  obtain ⟨s₁, hs, hrun⟩ := h.run
  exact ⟨_, s₁, underway_start hr h.pending hs, hrun⟩

/-- An unfinished operation has been credited what it no longer misses. -/
theorem Underway.balance (h : Underway cfg s₀ w notified tr₁ tr s) {k : Carrier T} {r : Nat}
    (hk : s.live k = some (w, r)) :
    ¬ Completed w tr ∧ (credits w tr).length + r = w.numIds := by
  obtain ⟨-, hfin, hbal⟩ := (accounts_machine h.reach).balance k w r hk
  rw [items_ledger, credits_append, h.nothing, List.nil_append] at hbal
  refine ⟨fun hc => hfin (finish_ledger.mpr ?_), hbal⟩
  exact completed_append.mpr (Or.inr hc)

/-- An operation that completed has been credited every id of its range. -/
theorem Underway.completed (h : Underway cfg s₀ w notified tr₁ tr s) (hc : Completed w tr) :
    ∀ id, w.covers id → id ∈ credits w tr := by
  have hstart : Started w (tr₁ ++ tr) := by
    obtain ⟨t, ht⟩ := h.started
    exact ⟨t, List.mem_append_left _ ht⟩
  have hlen : (credits w tr).length = w.numIds := by
    rcases (accounts_machine h.reach).settled w (start_ledger.mpr hstart) with
      ⟨k, r, hk⟩ | ⟨-, hlen⟩
    · exact absurd hc (h.balance hk).1
    · rwa [items_ledger, credits_append, h.nothing, List.nil_append] at hlen
  exact covers_of_nodup h.collecting.nodup (fun id hid => (h.collecting.taken id hid).1) hlen

/-- Once everything has arrived, an operation that misses something finds it. -/
theorem Underway.pending (h : Underway cfg s₀ w notified tr₁ tr s) (hall : AllArrived s₀ w tr)
    {k : Carrier T} {r : Nat} (hk : s.live k = some (w, r)) (hr : r ≠ 0) :
    ∃ id, w.covers id ∧ s.notifications (w.segment, id) ≠ 0 := by
  by_contra hnone
  have hcred : ∀ id, w.covers id → id ∈ credits w tr := by
    intro id hcov
    rcases h.collecting.kept id hcov (hall id hcov) with hval | hid
    · exact absurd ⟨id, hcov, hval⟩ hnone
    · exact hid
  have hle : w.numIds ≤ (credits w tr).length := by
    have hsub : Finset.Ico w.firstId (w.firstId + w.numIds) ⊆ (credits w tr).toFinset := by
      intro id hid
      rw [Finset.mem_Ico] at hid
      exact List.mem_toFinset.mpr (hcred id hid)
    have hcard := Finset.card_le_card hsub
    rw [Nat.card_Ico, List.toFinset_card_of_nodup h.collecting.nodup] at hcard
    omega
  have := (h.balance hk).2
  omega

end Underway

/-! ## A check that runs after the last arrival -/

/-- The carriers an agent checks for. -/
def Agent.carries : Agent T → Carrier T → Prop
  | .task t, k => k = .frame t
  | .poller, k => ∃ x, k = .slot x

/-- The end of a check: the call is past its initial check, the poller past the segment. -/
def State.past (s : State T) (w : Wait) : Agent T → Prop
  | .task t => ∀ c, s.calls t = .checking c → c.wait ≠ w
  | .poller => s.poller.pc = .idle ∨ s.poller.pc = .segment ∨ ∃ left, s.poller.pc = .dequeue left

/-- What has become of a check for `w` that was running when the last notification arrived. -/
inductive Fate (a : Agent T) (w : Wait) (tr : List (Event T)) (s : State T) : Prop where
  | running {c : Check} : s.check a = some c → c.wait = w → c.pc ≠ .returned → Fate a w tr s
  | collected {k : Carrier T} : a.carries k → s.live k = some (w, 0) → Fate a w tr s
  | completed : Completed w tr → Fate a w tr s

theorem check_carrier {s : State T} (h : Owned s) {a : Agent T} {c : Check}
    (hc : s.check a = some c) :
    ∃ k, a.carries k ∧ s.live k = some (c.wait, c.remaining) := by
  cases a with
  | task t => exact ⟨.frame t, rfl, by rw [State.live_frame, check_task hc]; rfl⟩
  | poller =>
    obtain ⟨pos, x, hpc⟩ := check_poller hc
    have hx := h.phase_allocated (h.checking_list hpc) (by simp) (by simp)
    exact ⟨.slot x, ⟨x, rfl⟩, by rw [State.live_slot hx, State.pending_checking hpc]⟩

/-- Whoever has collected everything reports it before going on. -/
theorem Fate.completed_of_past {s : State T} (ho : Owned s) {a : Agent T} {w : Wait}
    {tr : List (Event T)} (h : Fate a w tr s) (hpast : s.past w a) : Completed w tr := by
  cases h with
  | @running c hc hw hpc =>
    cases a with
    | task t => exact absurd hw (hpast c (check_task hc))
    | poller =>
      obtain ⟨pos, x, hx⟩ := check_poller hc
      simp [State.past, hx] at hpast
  | @collected k hk hlive =>
    cases a with
    | task t =>
      obtain rfl : k = .frame t := hk
      rcases ho.collected hlive with ⟨t', c, ht, hcall, -⟩ | ⟨x, hx, -⟩
      · obtain rfl := Carrier.frame.inj ht
        rw [State.live_frame, hcall] at hlive
        exact absurd (Prod.mk.inj (Option.some.inj hlive)).1 (hpast c hcall)
      · cases hx
    | poller =>
      obtain ⟨x, rfl⟩ := hk
      have hpoll := ho.poll
      rcases ho.collected hlive with ⟨t, c, ht, -⟩ | ⟨y, -, hmem | ⟨pos, c, hpc, -⟩⟩
      · cases ht
      · have hempty : s.poller.completeRanges = [] := by
          rcases hpast with hpc | hpc | ⟨left, hpc⟩ <;>
            (rw [State.PollOk, hpc] at hpoll; exact hpoll)
        rw [hempty] at hmem
        cases hmem
      · simp [State.past, hpc] at hpast
  | completed hc => exact hc

section Fate

variable [DecidableEq T] {cfg : Limits} {s₀ s s' : State T} {w : Wait} {notified : Nat → Nat}
  {tr₁ tr es : List (Event T)} {a : Agent T}

/-- A slot is allocated by a call that misses something. -/
theorem Step.allocate_call (hs : Step cfg s es s') {x : Nat} (hes : es = [.allocate x w]) :
    ∃ t r, s.calls t = .allocate w r := by
  cases hs with
  | callAllocate ht hfree =>
    obtain ⟨-, rfl⟩ := Event.allocate.inj (List.singleton_injective hes)
    exact ⟨_, _, ht⟩
  | @pollChecked pos y c hpc hret =>
    obtain ⟨-, -, heq⟩ := mem_copyBackEvents (hes ▸ List.mem_singleton.mpr rfl)
    cases heq
  | _ => cases hes

/-- An operation that misses nothing stays where it is until it completes. -/
theorem live_zero_step (hr : Reach (machine T cfg) tr s) (hs : Step cfg s es s') {k : Carrier T}
    (hk : s.live k = some (w, 0)) : s'.live k = some (w, 0) ∨ Completed w es := by
  have ho := owned_reach hr
  cases live_step ho hs with
  | silent hl hn he => exact Or.inl (hl ▸ hk)
  | @start _ t w₀ hk₀ hw hl hn =>
    have hne : k ≠ .frame t := by
      rintro rfl
      rw [hk₀] at hk
      cases hk
    rw [hl, Function.update_of_ne hne]
    exact Or.inl hk
  | @reset _ b c id v r k₀ hc hcov hv hk₀ hl hn hz =>
    have hne : k ≠ k₀ := by
      rintro rfl
      rw [hk₀] at hk
      cases hk
    left
    rw [hl]
    by_cases hv0 : v ≠ 0
    · rw [if_pos hv0, Function.update_of_ne hne]
      exact hk
    · rw [if_neg hv0]
      exact hk
  | @move _ x w₀ r t hk₀ hx hl hn =>
    have hframe : k ≠ .frame t := by
      rintro rfl
      -- the call that allocates is the one in this frame, and it misses something
      obtain ⟨t', r', ht'⟩ := Step.allocate_call hs rfl
      have hk' : s.ledger.live (.frame t') = some (w₀, r') := by
        show (s.calls t').pending = _
        rw [ht']
        rfl
      obtain rfl := Carrier.frame.inj ((accounts_machine hr).unique _ _ _ _ _ _ hk' hk₀ rfl)
      obtain ⟨rfl, rfl⟩ := Prod.mk.inj (Option.some.inj (hk'.symm.trans hk))
      have hok := ho.calls t'
      rw [ht'] at hok
      exact absurd hok.1 (Nat.lt_irrefl 0)
    have hslot : k ≠ .slot x := by
      rintro rfl
      rw [hx] at hk
      cases hk
    rw [hl, Function.update_of_ne hslot, Function.update_of_ne hframe]
    exact Or.inl hk
  | @finish _ k₀ w₀ e hk₀ hl hn he =>
    by_cases hkk : k = k₀
    · subst hkk
      obtain ⟨rfl, -⟩ := Prod.mk.inj (Option.some.inj (hk₀.symm.trans hk))
      exact Or.inr (finish_ledger.mp (List.mem_filterMap.mpr ⟨e, List.mem_singleton.mpr rfl, he⟩))
    · rw [hl, Function.update_of_ne hkk]
      exact Or.inl hk

/-- **A check that runs after the last arrival finds everything.** -/
theorem fate_step (hu : Underway cfg s₀ w notified tr₁ tr s) (hall : AllArrived s₀ w tr)
    (h : Fate a w tr s) (hs : Step cfg s es s') : Fate a w (tr ++ es) s' := by
  have ho := owned_reach hu.reach
  cases h with
  | @running c hc hw hpc =>
    cases hs.checks_cases with
    | arrive hv hnot hchk => exact .running (hchk ▸ hc) hw hpc
    | @timeout _ b c' hc' hwait hnone hnot hchk =>
      by_cases hb : a = b
      · subst hb
        obtain rfl : c = c' := Option.some.inj (hc.symm.trans hc')
        obtain ⟨k, -, hk⟩ := check_carrier ho hc
        have hpos := (ho.check_ok hc).pos hpc
        obtain ⟨id, hcov, hval⟩ := hu.pending hall (hw ▸ hk) (by omega)
        exact absurd (hnone id (hw ▸ hcov)) (hw ▸ hval)
      · exact .running (by rw [hchk, Function.update_of_ne hb, hc]) hw hpc
    | @waitsome _ b c' id hc' hwait hcov hval hnot hchk =>
      by_cases hb : a = b
      · subst hb
        obtain rfl : c = c' := Option.some.inj (hc.symm.trans hc')
        refine .running (by rw [hchk, Function.update_self]) (by rw [c.afterWaitsome_wait, hw]) ?_
        unfold Check.afterWaitsome
        cases c.routine <;> exact CheckPc.noConfusion
      · exact .running (by rw [hchk, Function.update_of_ne hb, hc]) hw hpc
    | @reset _ b c' id v hc' hreset hv hnot hchk =>
      by_cases hb : a = b
      · subst hb
        obtain rfl : c = c' := Option.some.inj (hc.symm.trans hc')
        have hnew : s'.check a = some (c.afterReset v) := by rw [hchk, Function.update_self]
        have hwait : (c.afterReset v).wait = w := by rw [c.afterReset_wait, hw]
        by_cases hret : (c.afterReset v).pc = .returned
        · have hv0 : v ≠ 0 := hv ▸ hw ▸ hu.collecting.resets a c id hc hw hreset
          obtain ⟨k, hk, hlive⟩ := check_carrier (owned_step ho hs) hnew
          rw [hwait, Check.afterReset_returned hv0 hret] at hlive
          exact .collected hk hlive
        · exact .running hnew hwait hret
      · exact .running (by rw [hchk, Function.update_of_ne hb, hc]) hw hpc
    | quiet hnot hes hmove => exact .running ((hmove a).forth hc hpc) hw hpc
  | @collected k hk hlive =>
    rcases live_zero_step hu.reach hs hlive with hlive | hdone
    · exact .collected hk hlive
    · exact .completed (completed_append.mpr (Or.inr hdone))
  | completed hc => exact .completed (completed_append.mpr (Or.inl hc))

/-- The same along a run. -/
theorem fate_reach (hu : Underway cfg s₀ w notified tr₁ tr s) (hall : AllArrived s₀ w tr)
    (h : Fate a w tr s)
    (h' : ReachUnder ((machine T cfg).after s) ((once s₀ w notified).after tr) es s') :
    Fate a w (tr ++ es) s' := by
  refine ReachUnder.invariant (M := (machine T cfg).after s)
    (I := fun es s' => Fate a w (tr ++ es) s') ?_ ?_ h'
  · rintro _ rfl
    rw [List.append_nil]
    exact h
  · intro es es' s s' hr hf hs _
    rw [← List.append_assoc]
    exact fate_step (hu.after hr) (fun id hcov => (hall id hcov).append es) hf hs

/-- A check that has returned by then is missing nothing. -/
theorem Fate.remaining (h : Fate a w tr s) (hu : Underway cfg s₀ w notified tr₁ tr s) {c : Check}
    (hc : s.check a = some c) (hw : c.wait = w) (hret : c.pc = .returned) : c.remaining = 0 := by
  obtain ⟨k, -, hk⟩ := check_carrier (owned_reach hu.reach) hc
  rw [hw] at hk
  cases h with
  | running hc' _ hpc =>
    obtain rfl := Option.some.inj (hc.symm.trans hc')
    exact absurd hret hpc
  | collected _ hlive =>
    obtain rfl := (accounts_machine hu.reach).unique _ _ _ _ _ _ hk hlive rfl
    exact (Prod.mk.inj (Option.some.inj (hk.symm.trans hlive))).2
  | completed hdone => exact absurd hdone (hu.balance hk).1

end Fate

end Tagaspi
