import Tagaspi.Notifications.Liveness

/-!
# One pass is enough

`wait_completes` says that an operation completes in the end. Here no fairness is assumed: if
the call is over and all the notifications have arrived when the poller is about to go to the
segment, the operation has completed when the poller has come to the end of the same pass.

- `OnWay`: the poller has not yet passed by, and the range is in its way.
- `pass_completes`: the pass in which the poller passes by completes the operation.
-/

namespace Tagaspi

open Lts

variable {T : Type} [DecidableEq T] {cfg : Limits} {s₀ s s' : State T} {t : T} {w : Wait}
  {notified : Nat → Nat} {tr₁ tr es : List (Event T)}

/-- Where the poller and the range of `w` are, in a pass that began before the range was
reached. -/
inductive OnWay (w : Wait) (tr : List (Event T)) (s : State T) : Prop where
  /-- The poller has still to come to the segment. -/
  | before {x : Nat} :
      s.poller.pc = .segment ∧ s.poller.seg ≤ w.segment ∨
        s.poller.pc.busy = true ∧ s.poller.seg < w.segment →
      x ∈ s.queues w.segment ∨ x ∈ s.lists w.segment → (s.objects x).toWait = w → OnWay w tr s
  | caught {x : Nat} : Caught w x tr s → OnWay w tr s
  | completed : Completed w tr → OnWay w tr s

/-- **What a step does to a range in the way of the poller.** -/
theorem onWay_step (hlim : cfg.maxSegments ≤ 2 ^ cfg.segmentBits)
    (hseg : w.segment < cfg.maxSegments) (hu : Underway cfg s₀ w notified tr₁ tr s)
    (hall : AllArrived s₀ w tr) (h : OnWay w tr s) (hs : Step cfg s es s') :
    OnWay w (tr ++ es) s' := by
  have ho := owned_reach hu.reach
  cases h with
  | @before x hat hx hw =>
    have hw' : (s'.objects x).toWait = w := by
      rcases hx with hx | hx
      · exact (hs.toWait_eq (ho.not_free (p := .queue w.segment) hx (by simp))).trans hw
      · exact (hs.toWait_eq (ho.not_free (p := .list w.segment) hx (by simp))).trans hw
    -- the poller is at work before the segment, and touches other ranges only
    have go : s'.poller.pc.busy = true → s'.poller.seg = s.poller.seg → s.poller.pc.busy = true →
        s'.lists w.segment = s.lists w.segment → s'.queues w.segment = s.queues w.segment →
        OnWay w (tr ++ es) s' := by
      intro hb' hsame hb hl hq
      refine .before (.inr ⟨hb', ?_⟩) (by rwa [hl, hq]) hw'
      rcases hat with ⟨hpc, -⟩ | ⟨-, hlt⟩
      · rw [hpc] at hb
        cases hb
      · rwa [hsame]
    have hne : s.poller.pc.busy = true → w.segment ≠ s.poller.seg := by
      intro hb
      rcases hat with ⟨hpc, -⟩ | ⟨-, hlt⟩
      · rw [hpc] at hb
        cases hb
      · exact Nat.ne_of_gt hlt
    cases hs.poller_cases with
    | other hp hl hq =>
      exact .before (hp ▸ hat) (hx.imp (fun hx => (hq _).subset hx) (hl ▸ ·)) hw'
    | start hpc =>
      rw [hpc] at hat
      rcases hat with ⟨hcon, -⟩ | ⟨hcon, -⟩ <;> cases hcon
    | segment hpc _ hp hl hq =>
      rcases hat with ⟨-, hle⟩ | ⟨hb, -⟩
      · rcases Nat.lt_or_eq_of_le hle with hlt | heq
        · refine .before (.inr ⟨by rw [hp]; rfl, by rwa [hp]⟩) (by rwa [hl, hq]) hw'
        · refine .caught (.moving (by rw [hp]) (by rw [hp, heq]) hw' ?_)
          rw [hl, hq, heq, List.take_length]
          exact hx
      · rw [hpc] at hb
        cases hb
    | finish hpc hlast =>
      rcases hat with ⟨-, hle⟩ | ⟨hb, -⟩
      · exact absurd (Nat.lt_of_le_of_lt hle hseg) hlast
      · rw [hpc] at hb
        cases hb
    | dequeue hpc _ hp hl hq =>
      have hb : s.poller.pc.busy = true := by rw [hpc]; rfl
      refine go (by rw [hp]; rfl) (by rw [hp]) hb ?_ ?_
      · rw [hl, Function.update_of_ne (hne hb)]
      · rw [hq, Function.update_of_ne (hne hb)]
    | move hpc _ hp hl hq =>
      have hb : s.poller.pc.busy = true := by rw [hpc]; rfl
      refine go (by rw [hp]; rfl) (by rw [hp]) hb ?_ (by rw [hq])
      rw [hl, Function.update_of_ne (hne hb)]
    | dequeued hpc hp hl hq | check hpc _ hp hl hq | call hpc _ hp hl hq | stay hpc _ hp hl hq
    | scanned hpc _ hp hl hq | complete hpc _ _ hp hl hq | free hpc _ hp hl hq =>
      exact go (by rw [hp]; rfl) (by rw [hp]) (by rw [hpc]; rfl) (by rw [hl]) (by rw [hq])
    | next hpc _ hp hl hq =>
      rcases hat with ⟨hcon, -⟩ | ⟨-, hlt⟩
      · rw [hpc] at hcon
        cases hcon
      · refine .before (.inl ⟨by rw [hp], ?_⟩) (by rwa [hl, hq]) hw'
        rw [hp]
        show (s.poller.seg + 1) % 2 ^ cfg.segmentBits ≤ w.segment
        rw [Nat.mod_eq_of_lt (by omega)]
        omega
  | caught h => exact .caught (caught_step hu hall h hs)
  | completed h => exact .completed (completed_append.mpr (.inl h))

omit [DecidableEq T] in
/-- At the end of the pass the operation has completed. -/
theorem OnWay.completed_of_idle (ho : Owned s) (h : OnWay w tr s) (hidle : s.poller.pc = .idle) :
    Completed w tr := by
  cases h with
  | before hat =>
    rw [hidle] at hat
    rcases hat with ⟨hcon, -⟩ | ⟨hcon, -⟩ <;> cases hcon
  | caught h =>
    cases h with
    | moving h | ahead h | later h =>
      rw [hidle] at h
      cases h
    | fate h => exact h.completed_of_past ho (.inl hidle)
  | completed h => exact h

/-- **One pass is enough.** In a schedule of an operation, in which its ids are notified at most
once and no other operation resets them, the call is over and all the notifications have arrived,
and the poller is about to go to a segment that is not beyond that of the operation. Then,
however such a run goes on, the operation has completed once, with the notified values in its
buffer, when the poller has reached the end of its pass. -/
theorem pass_completes (hlim : cfg.maxSegments ≤ 2 ^ cfg.segmentBits)
    (h : Schedule cfg t w notified s₀ tr s) (hall : AllArrived s₀ w tr) (hover : CallOver t w s)
    (hpc : s.poller.pc = .segment) (hat : s.poller.seg ≤ w.segment)
    (hrun : ReachUnder ((machine T cfg).after s) ((once s₀ w notified).after tr) es s')
    (hend : s'.poller.pc = .idle) :
    completions w (tr ++ es) = 1 ∧
      ∀ b i, w.notifiedValues = some b → i < w.numIds →
        lastWrite w i (tr ++ es) = some (notified (w.firstId + i)) := by
  obtain ⟨tr₀, hr₀⟩ := h.reached
  obtain ⟨s₁, hs, hrun₁⟩ := h.run
  have hstart := underway_start hr₀ h.pending hs
  have hu := hstart.run hrun₁
  obtain ⟨hseg, k, hin⟩ := start_inCall hs
  have ho := owned_reach hu.reach
  -- nothing is left over from an earlier pass
  have hnone := ho.poll
  rw [State.PollOk, hpc] at hnone
  have hway : OnWay w tr s := by
    rcases inCall_or_handed (hr₀.step hs) hin hrun₁.reach with ⟨k, hin'⟩ | hhanded
    · exact absurd hin' (hover k)
    · cases hhanded with
      | queued hx hw => exact .before (.inl ⟨hpc, hat⟩) (.inl hx) hw
      | listed hx hw => exact .before (.inl ⟨hpc, hat⟩) (.inr hx) hw
      | complete hx =>
        rw [hnone] at hx
        cases hx
      | completed hc => exact .completed hc
  have hlater : Underway cfg s₀ w notified (tr₀ ++ [.start t w]) (tr ++ es) s' := hu.after hrun
  have hway' : OnWay w (tr ++ es) s' := by
    have := hrun.invariant (M := (machine T cfg).after s)
      (I := fun es s' => Underway cfg s₀ w notified (tr₀ ++ [.start t w]) (tr ++ es) s' ∧
        OnWay w (tr ++ es) s') ?_ ?_
    · exact this.2
    · rintro _ rfl
      rw [List.append_nil]
      exact ⟨hu, hway⟩
    · rintro es es' s₁ s₂ - ⟨hu₁, hway₁⟩ hs hguard
      rw [← List.append_assoc]
      exact ⟨hu₁.step hs hguard,
        onWay_step hlim hseg hu₁ (fun id hcov => (hall id hcov).append es) hway₁ hs⟩
  have hdone := hway'.completed_of_idle (owned_reach hlater.reach) hend
  have hsched : Schedule cfg t w notified s₀ (tr ++ es) s' :=
    ⟨h.reached, h.pending, s₁, hs, hrun₁.trans hrun⟩
  exact ⟨hsched.completions_eq_one hdone, fun b i hb hi => (hsched.buffer hdone hb hi).1⟩

/-- The notification has arrived when the poller begins its pass, and its value is in the buffer
when the pass is over. -/
theorem pass_completes_one :
    ∃ (s₀ s s' : State Unit) (tr es : List (Event Unit)),
      Schedule oneSegment () oneValue (· + 5) s₀ tr s ∧ s.poller = ⟨.segment, 0, []⟩ ∧
      Reach ((machine Unit oneSegment).after s) es s' ∧ s'.poller.pc = .idle ∧
      completions oneValue (tr ++ es) = 1 ∧ lastWrite oneValue 0 (tr ++ es) = some 5 := by
  obtain ⟨s₀, s₁, tr, s, es, s', hi, hn, hstart, hrun, hall, hc, hp, hpass, -, hpc⟩ := one_pass
  have hsched : Schedule oneSegment () oneValue (· + 5) s₀ tr s :=
    ⟨⟨_, .init hi⟩, fun id _ hval => absurd (by rw [hn]) hval, s₁, hstart,
      hrun.mono fun _ _ _ h => h.1⟩
  obtain ⟨hcount, hbuf⟩ := pass_completes (by decide) hsched hall (callOver_of_idle hc)
    (congrArg Poller.pc hp) (by rw [hp]; exact Nat.zero_le _) (hpass.mono fun _ _ _ h => h.1) hpc
  exact ⟨s₀, s, s', tr, es, hsched, hp, hpass.reach, hpc, hcount, hbuf 100 0 rfl Nat.one_pos⟩

end Tagaspi
