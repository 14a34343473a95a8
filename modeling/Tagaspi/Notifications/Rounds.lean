import Mathlib.Data.Prod.Lex
import Tagaspi.Lib.Liveness
import Tagaspi.Notifications.Progress

/-!
# The notifications poller goes round

`pollNotifications` goes through all the segments, and for each of them through the queue and
the list of its ranges, while tasks go on enqueueing ranges and notifications keep arriving.

- `PollerStep`: what a step does to the poller, the queues and the lists.
- `State.round`: what the poller has left to do for the segment it is at.
- `segment_ends`: if the poller is scheduled fairly it is done with a segment in the end.
- `visits`: it comes to every segment again and again.
-/

namespace Tagaspi

open Lts

variable {T : Type}

/-! ## The poller's control flow -/

/-- What a step does to the poller, the queues and the lists. -/
inductive PollerStep (cfg : Limits) (s : State T) (es : List (Event T)) (s' : State T) :
    Prop where
  /-- A step of a task or a remote notification: ranges may be enqueued. -/
  | other :
      s'.poller = s.poller → s'.lists = s.lists → (∀ g, s.queues g <+: s'.queues g) →
      PollerStep cfg s es s'
  | start :
      s.poller.pc = .idle → s'.poller = ⟨.segment, 0, []⟩ → s'.lists = s.lists →
      s'.queues = s.queues → PollerStep cfg s es s'
  | segment :
      s.poller.pc = .segment → s.poller.seg < cfg.maxSegments →
      s'.poller = { s.poller with pc := .dequeue (s.queues s.poller.seg).length } →
      s'.lists = s.lists → s'.queues = s.queues → PollerStep cfg s es s'
  | finish :
      s.poller.pc = .segment → ¬ s.poller.seg < cfg.maxSegments →
      s'.poller = { s.poller with pc := .idle } → s'.lists = s.lists → s'.queues = s.queues →
      PollerStep cfg s es s'
  | dequeue {left x : Nat} {rest : List Nat} :
      s.poller.pc = .dequeue (left + 1) → s.queues s.poller.seg = x :: rest →
      s'.poller = { s.poller with pc := .dequeue left } →
      s'.lists = Function.update s.lists s.poller.seg (s.lists s.poller.seg ++ [x]) →
      s'.queues = Function.update s.queues s.poller.seg rest → PollerStep cfg s es s'
  | dequeued :
      s.poller.pc = .dequeue 0 → s'.poller = { s.poller with pc := .scan 0 } →
      s'.lists = s.lists → s'.queues = s.queues → PollerStep cfg s es s'
  | check {pos x : Nat} :
      s.poller.pc = .scan pos → (s.lists s.poller.seg)[pos]? = some x →
      s'.poller = { s.poller with pc := .checking pos x (s.beginCheck x) } →
      s'.lists = s.lists → s'.queues = s.queues → PollerStep cfg s es s'
  | call {pos x : Nat} {c c' : Check} :
      s.poller.pc = .checking pos x c → c'.wait = c.wait →
      s'.poller = { s.poller with pc := .checking pos x c' } →
      s'.lists = s.lists → s'.queues = s.queues → PollerStep cfg s es s'
  | stay {pos x : Nat} {c : Check} :
      s.poller.pc = .checking pos x c → c.remaining ≠ 0 →
      s'.poller = { s.poller with pc := .scan (pos + 1) } →
      s'.lists = s.lists → s'.queues = s.queues → PollerStep cfg s es s'
  | move {pos x : Nat} {c : Check} :
      s.poller.pc = .checking pos x c → c.remaining = 0 →
      s'.poller = { s.poller with
        pc := .scan pos, completeRanges := s.poller.completeRanges ++ [x] } →
      s'.lists = Function.update s.lists s.poller.seg ((s.lists s.poller.seg).eraseIdx pos) →
      s'.queues = s.queues → PollerStep cfg s es s'
  | scanned {pos : Nat} :
      s.poller.pc = .scan pos → (s.lists s.poller.seg)[pos]? = none →
      s'.poller = { s.poller with pc := .completing } → s'.lists = s.lists →
      s'.queues = s.queues → PollerStep cfg s es s'
  | complete {x : Nat} {rest : List Nat} :
      s.poller.pc = .completing → s.poller.completeRanges = x :: rest →
      es = [.complete x (s.objects x).toWait (s.objects x).task] →
      s'.poller = { s.poller with pc := .freeing } → s'.lists = s.lists →
      s'.queues = s.queues → PollerStep cfg s es s'
  | free {x : Nat} {rest : List Nat} :
      s.poller.pc = .freeing → s.poller.completeRanges = x :: rest →
      s'.poller = { s.poller with pc := .completing, completeRanges := rest } →
      s'.lists = s.lists → s'.queues = s.queues → PollerStep cfg s es s'
  | next :
      s.poller.pc = .completing → s.poller.completeRanges = [] →
      s'.poller = ⟨.segment, (s.poller.seg + 1) % 2 ^ cfg.segmentBits, []⟩ →
      s'.lists = s.lists → s'.queues = s.queues → PollerStep cfg s es s'

section Steps

variable [DecidableEq T] {cfg : Limits} {s s' : State T} {es : List (Event T)}

omit [DecidableEq T] in
theorem free_queues (s : State T) (x : Nat) : (s.free x).queues = s.queues ∧
    (s.free x).lists = s.lists := by
  unfold State.free
  by_cases h : s.freeSlots.length < numEntries
  · rw [if_pos h]
    exact ⟨rfl, rfl⟩
  · rw [if_neg h]
    exact ⟨rfl, rfl⟩

omit [DecidableEq T] in
theorem checked_queues (s : State T) (pos x r : Nat) :
    (((s.setRemaining x r).copyBack x).advance pos x r).queues = s.queues :=
  (sameOwners_advance (s.setRemaining x r) pos x r).queues.trans (by
    unfold State.advance State.setPc
    by_cases hr : r = 0
    · rw [if_pos hr]
      rfl
    · rw [if_neg hr]
      rfl)

/-- A GASPI call of a check. -/
theorem PollerStep.setCheck {a : Agent T} {c c' : Check} (hc : s.check a = some c)
    (hw : c'.wait = c.wait) {s₁ : State T} (hs : s₁.check a = some c)
    (hp : s₁.poller = s.poller) (hl : s₁.lists = s.lists) (hq : s₁.queues = s.queues) :
    PollerStep cfg s es (s₁.setCheck a c') := by
  cases a with
  | task t =>
    refine .other hp hl fun g => ?_
    show s.queues g <+: s₁.queues g
    rw [hq]
  | poller =>
    obtain ⟨pos, x, hpc⟩ := check_poller hc
    obtain ⟨pos', x', hpc'⟩ := check_poller hs
    obtain ⟨rfl, rfl, -⟩ : pos' = pos ∧ x' = x ∧ True := by
      rw [hp, hpc] at hpc'
      obtain ⟨h₁, h₂, -⟩ := PollPc.checking.inj hpc'
      exact ⟨h₁.symm, h₂.symm, trivial⟩
    rw [setCheck_poller hpc']
    refine .call hpc hw ?_ hl hq
    simp only [State.setPc, hp]

/-- **What a step does to the poller, the queues and the lists.** -/
theorem Step.poller_cases (hs : Step cfg s es s') : PollerStep cfg s es s' := by
  cases hs with
  | arrive | notifyAsyncWait | notifyAsyncWaitall | notifyAsyncWaitallNone | callReturn
  | callMissing | callIncrease | callAllocate =>
    exact .other rfl rfl fun _ => List.prefix_refl _
  | @callEnqueue t g x ht hcap =>
    refine .other rfl rfl fun g' => ?_
    show s.queues g' <+: Function.update s.queues g (s.queues g ++ [x]) g'
    by_cases hg : g' = g
    · subst hg
      rw [Function.update_self]
      exact List.prefix_append ..
    · rw [Function.update_of_ne hg]
  | timeout hc hpc hnone => exact .setCheck hc (Check.afterTimeout_wait _) hc rfl rfl rfl
  | waitsome id hc hpc hid hval => exact .setCheck hc (Check.afterWaitsome_wait ..) hc rfl rfl rfl
  | @reset a c id v hc hpc hv =>
    have hsame := sameOwners_take s c id v
    exact .setCheck hc (Check.afterReset_wait ..) ((take_check s c id v a).trans hc)
      (take_poller s c id v) hsame.lists hsame.queues
  | pollStart hpc => exact .start hpc rfl rfl rfl
  | pollSegment hpc hseg => exact .segment hpc hseg rfl rfl rfl
  | pollEnd hpc hseg => exact .finish hpc hseg rfl rfl rfl
  | pollDequeue hpc hq => exact .dequeue hpc hq rfl rfl rfl
  | pollDequeued hpc => exact .dequeued hpc rfl rfl rfl
  | pollCheck hpc hx => exact .check hpc hx rfl rfl rfl
  | @pollChecked pos x c hpc hret =>
    have hmoved := checked_poller s pos x c.remaining
    have hqueues := checked_queues s pos x c.remaining
    by_cases hr : c.remaining = 0
    · obtain ⟨hp, hl⟩ := hmoved.1 hr
      exact .move hpc hr hp hl hqueues
    · obtain ⟨hp, hl⟩ := hmoved.2 hr
      exact .stay hpc hr hp hl hqueues
  | pollScanned hpc hx => exact .scanned hpc hx rfl rfl rfl
  | pollComplete hpc hc => exact .complete hpc hc rfl rfl rfl rfl
  | pollFree hpc hc => exact .free hpc hc rfl (free_queues s _).2 (free_queues s _).1
  | pollNext hpc hc => exact .next hpc hc rfl rfl rfl

/-! ## The poller can always go on -/

variable (cfg) in
/-- The poller moves. -/
def PollerMoves : Action (State T) (Event T) := fun s es s' =>
  Step cfg s es s' ∧ s'.poller ≠ s.poller

/-- The ranges that are still to be moved are in the queue. -/
def State.Counted (s : State T) : Prop :=
  ∀ left, s.poller.pc = .dequeue left → left ≤ (s.queues s.poller.seg).length

theorem counted_step (h : s.Counted) (hs : Step cfg s es s') : s'.Counted := by
  intro n hn
  cases hs.poller_cases with
  | other hp hl hq =>
    rw [hp] at hn ⊢
    exact Nat.le_trans (h n hn) (hq _).length_le
  | segment hpc hseg hp hl hq =>
    rw [hp] at hn ⊢
    rw [hq]
    exact Nat.le_of_eq (PollPc.dequeue.inj hn).symm
  | @dequeue left x rest hpc hx hp hl hq =>
    rw [hp] at hn ⊢
    obtain rfl := PollPc.dequeue.inj hn
    have hlen := h _ hpc
    rw [hx, List.length_cons] at hlen
    rw [hq]
    show left ≤ (Function.update s.queues s.poller.seg rest s.poller.seg).length
    rw [Function.update_self]
    omega
  | start _ hp | finish _ _ hp | dequeued _ hp | check _ _ hp | call _ _ hp | stay _ _ hp
  | move _ _ hp | scanned _ _ hp | complete _ _ _ hp | free _ _ hp | next _ _ hp =>
    rw [hp] at hn
    cases hn

theorem counted_reach {tr : List (Event T)} (hr : Reach (machine T cfg) tr s) : s.Counted := by
  refine Reach.invariant (I := fun _ s => s.Counted) ?_ (fun _ _ _ _ _ h hs => counted_step h hs) hr
  intro s hs left hpc
  rw [hs.poller] at hpc
  cases hpc

omit [DecidableEq T] in
theorem poller_ne (h : s'.poller.pc ≠ s.poller.pc) : s'.poller ≠ s.poller :=
  fun heq => h (congrArg Poller.pc heq)

/-- A check of the poller goes on. -/
theorem poller_ne_setCheck {c c' : Check} {s₁ : State T} (hc : s.check .poller = some c)
    (hs : s₁.poller = s.poller) (hne : c'.pc ≠ c.pc) :
    (s₁.setCheck .poller c').poller ≠ s.poller := by
  obtain ⟨pos, x, hpc⟩ := check_poller hc
  rw [setCheck_poller (s := s₁) (by rw [hs]; exact hpc)]
  refine poller_ne ?_
  rw [hpc]
  exact fun heq => hne (congrArg Check.pc (PollPc.checking.inj heq).2.2)

/-- **The poller can always go on.** -/
theorem poller_enabled (ho : Owned s) (hcount : s.Counted) : Enabled (PollerMoves cfg) s := by
  have hpoll := ho.poll
  cases hpc : s.poller.pc with
  | idle => exact ⟨_, _, .pollStart hpc, poller_ne (by simp [hpc])⟩
  | segment =>
    by_cases hseg : s.poller.seg < cfg.maxSegments
    · exact ⟨_, _, .pollSegment hpc hseg, poller_ne (by simp [hpc, State.setPc])⟩
    · exact ⟨_, _, .pollEnd hpc hseg, poller_ne (by simp [hpc, State.setPc])⟩
  | dequeue left =>
    cases left with
    | zero => exact ⟨_, _, .pollDequeued hpc, poller_ne (by simp [hpc, State.setPc])⟩
    | succ left =>
      have hlen := hcount _ hpc
      obtain ⟨x, rest, hx⟩ := List.exists_cons_of_length_pos (Nat.zero_lt_of_lt hlen)
      exact ⟨_, _, .pollDequeue hpc hx, poller_ne (by simp [hpc, State.setPc])⟩
  | scan pos =>
    cases hx : (s.lists s.poller.seg)[pos]? with
    | none => exact ⟨_, _, .pollScanned hpc hx, poller_ne (by simp [hpc, State.setPc])⟩
    | some x => exact ⟨_, _, .pollCheck hpc hx, poller_ne (by simp [hpc, State.setPc])⟩
  | checking pos x c =>
    have hc : s.check .poller = some c := by simp only [State.check, hpc]
    cases hcase : c.pc with
    | waitsome =>
      by_cases hsome : ∃ id, c.wait.covers id ∧ s.notifications (c.wait.segment, id) ≠ 0
      · obtain ⟨id, hcov, hval⟩ := hsome
        refine ⟨_, _, .waitsome id hc hcase hcov hval, poller_ne_setCheck hc rfl ?_⟩
        rw [hcase]
        unfold Check.afterWaitsome
        cases c.routine <;> exact CheckPc.noConfusion
      · refine ⟨_, _, .timeout hc hcase fun id hcov => by_contra fun hval => hsome ⟨id, hcov, hval⟩,
          poller_ne_setCheck hc rfl ?_⟩
        rw [hcase]
        exact CheckPc.noConfusion
    | reset id =>
      refine ⟨_, _, .reset hc hcase rfl, poller_ne_setCheck hc (take_poller ..) ?_⟩
      rw [hcase]
      exact Check.afterReset_pc _ _ _
    | returned =>
      refine ⟨_, _, .pollChecked hpc hcase, poller_ne ?_⟩
      obtain ⟨pos', hscan⟩ := checked_pc s pos x c.remaining
      rw [hscan, hpc]
      exact PollPc.noConfusion
  | completing =>
    cases hc : s.poller.completeRanges with
    | nil => exact ⟨_, _, .pollNext hpc hc, poller_ne (by simp [hpc])⟩
    | cons x rest => exact ⟨_, _, .pollComplete hpc hc, poller_ne (by simp [hpc, State.setPc])⟩
  | freeing =>
    rw [State.PollOk, hpc] at hpoll
    obtain ⟨x, rest, hc⟩ := List.exists_cons_of_ne_nil hpoll
    exact ⟨_, _, .pollFree hpc hc, poller_ne (by simp [hpc])⟩

/-! ## A segment comes to an end -/

/-- The poller is at the list of a segment. -/
def PollPc.listing : PollPc → Bool
  | .idle | .segment | .dequeue _ => false
  | .scan _ | .checking _ _ _ | .completing | .freeing => true

/-- The poller is at work on a segment. -/
def PollPc.busy : PollPc → Bool
  | .idle | .segment => false
  | .dequeue _ | .scan _ | .checking _ _ _ | .completing | .freeing => true

/-- What the poller has left to do for the segment it is at: first the ranges to move, then
the list. -/
def State.round (s : State T) : ℕ ×ₗ ℕ :=
  match s.poller.pc with
  | .dequeue left => toLex (1, left)
  | .idle | .segment | .scan _ | .checking _ _ _ | .completing | .freeing =>
    toLex (0, s.work .poller)

omit [DecidableEq T] in
theorem State.round_dequeue {left : Nat} (h : s.poller.pc = .dequeue left) :
    s.round = toLex (1, left) := by
  simp only [State.round, h]

omit [DecidableEq T] in
theorem State.round_listing (h : s.poller.pc.listing = true) :
    s.round = toLex (0, s.work .poller) := by
  unfold State.round
  cases hpc : s.poller.pc with
  | dequeue left =>
    rw [hpc] at h
    cases h
  | _ => rfl

omit [DecidableEq T] in
theorem Owned.work_listing (ho : Owned s) (h : s.poller.pc.listing = true) :
    s.work .poller ≠ 0 := by
  have hpoll := ho.poll
  cases hpc : s.poller.pc with
  | idle | segment | dequeue =>
    rw [hpc] at h
    cases h
  | scan | checking | completing =>
    simp only [State.work, hpc]
    omega
  | freeing =>
    rw [State.PollOk, hpc] at hpoll
    have := List.length_pos_iff.mpr hpoll
    simp only [State.work, hpc]
    omega

/-- A step of the poller itself lowers its work. -/
theorem work_poller_step (ho : Owned s) (hs : Step cfg s es s') (hne : s'.poller ≠ s.poller)
    (hw : s.work .poller ≠ 0) : s'.work .poller < s.work .poller := by
  cases hs with
  | @timeout a c hc hpc hnone =>
    cases a with
    | task t => exact absurd rfl hne
    | poller => exact work_setCheck hc (Check.left_afterTimeout (ho.check_ok hc) hpc)
  | @waitsome a c id hc hpc hid hval =>
    cases a with
    | task t => exact absurd rfl hne
    | poller => exact work_setCheck hc (Check.left_afterWaitsome (ho.check_ok hc) hpc id)
  | @reset a c id v hc hpc hv =>
    cases a with
    | task t => exact absurd (take_poller s c id v) hne
    | poller => exact work_reset ho v hc hpc
  | pollStart hpc | pollSegment hpc _ | pollEnd hpc _ | pollDequeue hpc _ | pollDequeued hpc =>
    exact absurd (by simp only [State.work, hpc]) hw
  | pollCheck hpc hx => exact work_pollCheck ho hpc hx
  | pollChecked hpc hret => exact work_pollChecked ho hpc hret
  | pollScanned hpc hx => exact work_pollScanned hpc
  | pollComplete hpc hc => exact work_pollComplete hpc
  | pollFree hpc hc => exact work_pollFree hpc hc
  | pollNext hpc hc => exact work_pollNext hpc _
  | arrive | notifyAsyncWait | notifyAsyncWaitall | notifyAsyncWaitallNone | callReturn
  | callMissing | callIncrease | callAllocate | callEnqueue => exact absurd rfl hne

/-- **A step while the poller is at work on a segment**: it is done with the segment, or nearer
to the end of it, or it has not moved and has no more to do than before. -/
theorem round_step (ho : Owned s) (hs : Step cfg s es s') (hb : s.poller.pc.busy = true) :
    (s'.poller.pc = .segment ∧ s'.poller.seg = (s.poller.seg + 1) % 2 ^ cfg.segmentBits) ∨
    (s'.poller.pc.busy = true ∧ s'.poller.seg = s.poller.seg ∧ s'.round < s.round) ∨
    (s'.poller = s.poller ∧ s'.round ≤ s.round) := by
  by_cases hsame : s'.poller = s.poller
  · refine .inr (.inr ⟨hsame, ?_⟩)
    cases hpc : s.poller.pc with
    | dequeue left =>
      rw [State.round_dequeue hpc, State.round_dequeue (s := s') (by rw [hsame, hpc])]
    | idle | segment =>
      rw [hpc] at hb
      cases hb
    | scan | checking | completing | freeing =>
      have hlist : s.poller.pc.listing = true := by rw [hpc]; rfl
      rw [State.round_listing hlist, State.round_listing (s := s') (by rw [hsame]; exact hlist),
        Prod.Lex.toLex_le_toLex]
      exact .inr ⟨rfl, work_step ho hs (ho.work_listing hlist)⟩
  · -- the poller is at the list, and stays there
    have hlist : s.poller.pc.listing = true → s'.poller.pc.listing = true → s'.round < s.round := by
      intro h h'
      rw [State.round_listing h, State.round_listing h', Prod.Lex.toLex_lt_toLex]
      exact .inr ⟨rfl, work_poller_step ho hs hsame (ho.work_listing h)⟩
    cases hs.poller_cases with
    | other hp => exact absurd hp hsame
    | start hpc | segment hpc | finish hpc =>
      rw [hpc] at hb
      cases hb
    | dequeue hpc _ hp =>
      refine .inr (.inl ⟨by rw [hp]; rfl, by rw [hp], ?_⟩)
      rw [State.round_dequeue hpc, State.round_dequeue (s := s') (by rw [hp]),
        Prod.Lex.toLex_lt_toLex]
      exact .inr ⟨rfl, Nat.lt_succ_self _⟩
    | dequeued hpc hp =>
      refine .inr (.inl ⟨by rw [hp]; rfl, by rw [hp], ?_⟩)
      rw [State.round_dequeue hpc, State.round_listing (s := s') (by rw [hp]; rfl),
        Prod.Lex.toLex_lt_toLex]
      exact .inl Nat.zero_lt_one
    | check hpc _ hp | call hpc _ hp | stay hpc _ hp | move hpc _ hp | scanned hpc _ hp
    | complete hpc _ _ hp | free hpc _ hp =>
      exact .inr (.inl ⟨by rw [hp]; rfl, by rw [hp],
        hlist (by rw [hpc]; rfl) (by rw [hp]; rfl)⟩)
    | next hpc _ hp => exact .inl ⟨by rw [hp], by rw [hp]⟩

end Steps

/-! ## The rounds -/

section Rounds

variable [DecidableEq T] {cfg : Limits} {s₁ : State T} {tr₁ : List (Event T)}

/-- The poller is at work on `segment`, with `k` left to do. -/
def Working (segment : Nat) (k : ℕ ×ₗ ℕ) (_ : Unit) (s : State T) : Prop :=
  s.poller.pc.busy = true ∧ s.poller.seg = segment ∧ s.round = k

/-- The poller gets nearer to the end of the segment. -/
theorem roundRanking (cfg : Limits) (s₁ : State T) (segment : Nat) :
    Ranking ((machine T cfg).after s₁) (fun _ : Unit => PollerMoves cfg)
      (fun _ s => Owned s ∧ s.Counted)
      (fun _ s' => s'.poller.pc = .segment ∧
        s'.poller.seg = (segment + 1) % 2 ^ cfg.segmentBits)
      (Working segment) where
  isStep _ _ _ _ h := h.1
  enabled _ _ _ _ hI _ := poller_enabled hI.1 hI.2
  step _ _ s s' _ _ hI _ hw hs := by
    obtain ⟨hb, hseg, rfl⟩ := hw
    rcases round_step hI.1 hs hb with ⟨hpc, hnext⟩ | ⟨hb', hseg', hlt⟩ | ⟨hsame, hle⟩
    · exact .inl ⟨hpc, by rw [hnext, hseg]⟩
    · exact .inr (.inl ⟨_, hlt, (), hb', hseg'.trans hseg, rfl⟩)
    · have hb' : s'.poller.pc.busy = true := by rw [hsame, hb]
      have hseg' : s'.poller.seg = segment := by rw [hsame, hseg]
      rcases lt_or_eq_of_le hle with hlt | heq
      · exact .inr (.inl ⟨_, hlt, (), hb', hseg', rfl⟩)
      · exact .inr (.inr ⟨⟨hb', hseg', heq⟩, fun hmove => hmove.2 hsame⟩)

variable (hr : Reach (machine T cfg) tr₁ s₁) (e : Execution ((machine T cfg).after s₁))
  (hfair : e.WeaklyFair (PollerMoves cfg))

include hr in
theorem owned_execution (n : Nat) : Owned (e.state n) ∧ (e.state n).Counted :=
  have hrun := hr.trans (e.reach n)
  ⟨owned_reach hrun, counted_reach hrun⟩

include hr hfair

/-- **A poll of a segment ends.** -/
theorem segment_ends {n : Nat} (hb : (e.state n).poller.pc.busy = true) :
    ∃ m, n < m ∧ (e.state m).poller.pc = .segment ∧
      (e.state m).poller.seg = ((e.state n).poller.seg + 1) % 2 ^ cfg.segmentBits := by
  obtain ⟨m, hm, hgoal⟩ := (roundRanking cfg s₁ (e.state n).poller.seg).reached e
    (fun _ => hfair) (fun p _ => owned_execution hr e p) (i := ()) ⟨hb, rfl, rfl⟩
  exact ⟨m + 1, by omega, hgoal⟩

/-- The next move of the poller. -/
theorem next_move (n : Nat) :
    ∃ m, n ≤ m ∧ (e.state m).poller = (e.state n).poller ∧
      Step cfg (e.state m) (e.events m) (e.state (m + 1)) ∧
      (e.state (m + 1)).poller ≠ (e.state m).poller := by
  obtain ⟨m, hm, htaken, hfirst⟩ := hfair.first_taken fun p (_ : n ≤ p) =>
    poller_enabled (owned_execution hr e p).1 (owned_execution hr e p).2
  refine ⟨m, hm, ?_, htaken.1, htaken.2⟩
  -- until then the poller stands still
  have hstill : ∀ p, n ≤ p → p ≤ m → (e.state p).poller = (e.state n).poller := by
    intro p hp
    induction p, hp using Nat.le_induction with
    | base => exact fun _ => rfl
    | succ p hp ih =>
      intro hle
      rcases e.next p with hs | ⟨hstate, -⟩
      · have hnot := hfirst p hp (by omega)
        rw [← ih (by omega)]
        by_contra hne
        exact hnot ⟨hs, hne⟩
      · rw [hstate]
        exact ih (by omega)
  exact hstill m hm (Nat.le_refl m)

/-- From the test of the loop the poller goes to the ranges of the segment, all those that are in
its queue at that moment. -/
theorem segment_begins {n : Nat} (hpc : (e.state n).poller.pc = .segment)
    (hseg : (e.state n).poller.seg < cfg.maxSegments) :
    ∃ m, n ≤ m ∧ (e.state m).poller.pc = .segment ∧
      (e.state m).poller.seg = (e.state n).poller.seg ∧
      (e.state (m + 1)).poller.pc =
        .dequeue ((e.state (m + 1)).queues (e.state n).poller.seg).length ∧
      (e.state (m + 1)).poller.seg = (e.state n).poller.seg := by
  obtain ⟨m, hm, hsame, hs, hne⟩ := next_move hr e hfair n
  rw [← hsame] at hpc hseg ⊢
  refine ⟨m, hm, hpc, rfl, ?_⟩
  cases hs.poller_cases with
  | other hp => exact absurd hp hne
  | segment _ _ hp _ hq =>
    rw [hp, hq]
    exact ⟨rfl, rfl⟩
  | finish _ hlast => exact absurd hseg hlast
  | start h | dequeue h | dequeued h | check h | call h | stay h | move h | scanned h
  | complete h | free h | next h =>
    rw [hpc] at h
    cases h

/-- The poller is called again. -/
theorem poll_starts {n : Nat} (hpc : (e.state n).poller.pc = .idle) :
    ∃ m, n < m ∧ (e.state m).poller.pc = .segment ∧ (e.state m).poller.seg = 0 := by
  obtain ⟨m, hm, hsame, hs, hne⟩ := next_move hr e hfair n
  rw [← hsame] at hpc
  refine ⟨m + 1, by omega, ?_⟩
  cases hs.poller_cases with
  | other hp => exact absurd hp hne
  | start _ hp =>
    rw [hp]
    exact ⟨rfl, rfl⟩
  | segment h | finish h | dequeue h | dequeued h | check h | call h | stay h | move h
  | scanned h | complete h | free h | next h =>
    rw [hpc] at h
    cases h

/-- After the last segment the poller starts again. -/
theorem segment_restarts {n : Nat} (hpc : (e.state n).poller.pc = .segment)
    (hseg : ¬ (e.state n).poller.seg < cfg.maxSegments) :
    ∃ m, n < m ∧ (e.state m).poller.pc = .segment ∧ (e.state m).poller.seg = 0 := by
  obtain ⟨m, hm, hsame, hs, hne⟩ := next_move hr e hfair n
  rw [← hsame] at hpc hseg
  have hidle : (e.state (m + 1)).poller.pc = .idle := by
    cases hs.poller_cases with
    | other hp => exact absurd hp hne
    | segment _ hlt => exact absurd hlt hseg
    | finish _ _ hp => rw [hp]
    | start h | dequeue h | dequeued h | check h | call h | stay h | move h | scanned h
    | complete h | free h | next h =>
      rw [hpc] at h
      cases h
  obtain ⟨p, hp, hpc', hseg'⟩ := poll_starts hr e hfair hidle
  exact ⟨p, by omega, hpc', hseg'⟩

/-- After a segment comes the next one, or the first. -/
theorem segment_next {n : Nat} (hpc : (e.state n).poller.pc = .segment) :
    ∃ m, n < m ∧ (e.state m).poller.pc = .segment ∧ (e.state m).poller.seg =
      if (e.state n).poller.seg < cfg.maxSegments then
        ((e.state n).poller.seg + 1) % 2 ^ cfg.segmentBits
      else 0 := by
  by_cases hseg : (e.state n).poller.seg < cfg.maxSegments
  · obtain ⟨m, hm, -, -, hpc', hseg'⟩ := segment_begins hr e hfair hpc hseg
    obtain ⟨p, hp, hend⟩ := segment_ends hr e hfair (n := m + 1) (by rw [hpc']; rfl)
    rw [hseg'] at hend
    exact ⟨p, by omega, by rw [if_pos hseg]; exact hend⟩
  · rw [if_neg hseg]
    exact segment_restarts hr e hfair hpc hseg

/-- From any point the poller comes to the test of its loop. -/
theorem poll_segment (n : Nat) : ∃ m, n ≤ m ∧ (e.state m).poller.pc = .segment := by
  cases hpc : (e.state n).poller.pc with
  | segment => exact ⟨n, Nat.le_refl n, hpc⟩
  | idle =>
    obtain ⟨m, hm, hpc', -⟩ := poll_starts hr e hfair hpc
    exact ⟨m, Nat.le_of_lt hm, hpc'⟩
  | dequeue | scan | checking | completing | freeing =>
    obtain ⟨m, hm, hpc', -⟩ := segment_ends hr e hfair (n := n) (by rw [hpc]; rfl)
    exact ⟨m, Nat.le_of_lt hm, hpc'⟩

/-- **The poller comes to every segment again and again.** -/
theorem visits (hlim : cfg.maxSegments ≤ 2 ^ cfg.segmentBits) {g : Nat}
    (hg : g < cfg.maxSegments) (n : Nat) :
    ∃ m, n ≤ m ∧ (e.state m).poller.pc = .segment ∧ (e.state m).poller.seg = g := by
  -- how far the segment after `seg` is: from beyond `g` the poller first has to start again
  let away (seg : Nat) : Nat := if seg ≤ g then g - seg else 2 ^ cfg.segmentBits - seg + g + 1
  obtain ⟨n', hn', hpc⟩ := poll_segment hr e hfair n
  induction h : away (e.state n').poller.seg using Nat.strong_induction_on generalizing n' with
  | _ k ih =>
    by_cases heq : (e.state n').poller.seg = g
    · exact ⟨n', hn', hpc, heq⟩
    · obtain ⟨m, hm, hpc', hseg'⟩ := segment_next hr e hfair hpc
      refine ih _ ?_ m (by omega) hpc' rfl
      rw [hseg', ← h]
      simp only [away]
      by_cases hlt : (e.state n').poller.seg < cfg.maxSegments
      · rw [if_pos hlt]
        by_cases hwrap : (e.state n').poller.seg + 1 < 2 ^ cfg.segmentBits
        · rw [Nat.mod_eq_of_lt hwrap]
          split <;> split <;> omega
        · have hlast : (e.state n').poller.seg + 1 = 2 ^ cfg.segmentBits := by omega
          rw [hlast, Nat.mod_self, if_pos (Nat.zero_le g), if_neg (by omega)]
          omega
      · rw [if_neg hlt, if_pos (Nat.zero_le g), if_neg (by omega)]
        omega

end Rounds

end Tagaspi
