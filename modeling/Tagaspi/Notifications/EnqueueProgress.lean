import Mathlib.Data.Prod.Lex
import Tagaspi.Notifications.WaitingRangeQueue
import Tagaspi.SpinLock.Progress

/-!
# `enqueue` returns

A call of `enqueue` waits in two places: for the lock, behind the threads with older tickets,
and with the lock in its hand for room in the queue. Each of the older calls may find the queue
full as well. The thread that has to move next is then the holder of the lock or the poller,
and the poller can be in the middle of `consume_all`.

- `Section`, `section_step`: how far a holder of the lock is from the end of its `push`.
- `Together`, `Sound`: where a thread can be in `enqueue` and in the lock.
- `Goes`: a thread in a call goes on; the poller calls `dequeueAll`.
- `Near`, `near_step`: how far the lock is from a thread that waits.
- `drawRanking`, `waitRanking`, `pushRanking`, `returnRanking`: the stages of a call.
- `enqueue_returns`: under a fair scheduler every call pushes its range and returns.
-/

namespace Tagaspi

open Lts

namespace WaitingRangeQueue

section Progress

variable {T α : Type}

/-! ## Inside the lock -/

section Section

variable {s s' : State T α} {es : List (Event T α)}

/-- The threads that move are the ones in a call, and whoever calls `dequeueAll`. -/
def Moves : Option T → State T α → List (Event T α) → State T α → Prop
  | none, s, _, s' => ∃ t, s.pc t = .idle ∧ s'.pc t = .consuming
  | some t, s, es, s' => s'.pc t ≠ s.pc t ∨ (s.pc t = .consuming ∧ ∃ x, .added x ∈ es)

/-- `push` will find room. -/
def Room (s : State T α) : Prop := s.queue.length + s.consumed < wrQueueCapacity

/-- `Section t k i s`: the lock is with `t`, which is `k` moves away from the end of `push`, and
`i` makes the next one. -/
inductive Section (t : T) : Nat → Option T → State T α → Prop where
  | pushed {s : State T α} : s.pc t = .pushed → Section t 0 (some t) s
  | pushing {s : State T α} {x : α} : s.pc t = .pushing x → Room s → Section t 1 (some t) s
  | locked {s : State T α} {x : α} : s.pc t = .locked x → Room s → Section t 2 (some t) s
  /-- The poller has to make room. -/
  | consuming {s : State T α} {u : T} :
      (s.pc t).inside = true → ¬ Room s → s.pc u = .consuming →
      Section t (s.queue.length + 3) (some u) s
  /-- Somebody has to poll. -/
  | full {s : State T α} :
      (s.pc t).inside = true → ¬ Room s → (∀ u, s.pc u ≠ .consuming) →
      Section t (wrQueueCapacity + 4) none s

theorem section_room {t : T} (hin : (s.pc t).inside = true) (hroom : Room s) :
    ∃ k < 3, ∃ i, Section t k i s := by
  cases hc : s.pc t with
  | locked => exact ⟨2, by omega, _, .locked hc hroom⟩
  | pushing => exact ⟨1, by omega, _, .pushing hc hroom⟩
  | idle | locking | pushed | consuming =>
    rw [hc] at hin
    cases hin

/-- Every holder of the lock is on its way. -/
theorem section_exists {t : T} (hc : (s.pc t).inside = true ∨ s.pc t = .pushed) :
    ∃ k i, Section t k i s := by
  rcases hc with hin | hc
  · by_cases hroom : Room s
    · obtain ⟨k, -, i, hsection⟩ := section_room hin hroom
      exact ⟨k, i, hsection⟩
    · by_cases hpoll : ∃ u, s.pc u = .consuming
      · obtain ⟨u, hu⟩ := hpoll
        exact ⟨_, _, .consuming hin hroom hu⟩
      · exact ⟨_, _, .full hin hroom fun u hu => hpoll ⟨u, hu⟩⟩
  · exact ⟨_, _, .pushed hc⟩

/-- A step that matters to nobody here. -/
theorem Section.congr {t : T} {k : Nat} {i : Option T} (h : Section t k i s)
    (ht : s'.pc t = s.pc t) (hqueue : s'.queue = s.queue) (hconsumed : s'.consumed = s.consumed)
    (hpolls : ∀ u, s'.pc u = .consuming ↔ s.pc u = .consuming) : Section t k i s' := by
  have hroom : Room s' ↔ Room s := by
    unfold Room
    rw [hqueue, hconsumed]
  cases h with
  | pushed hc => exact .pushed (ht.trans hc)
  | pushing hc hr => exact .pushing (ht.trans hc) (hroom.mpr hr)
  | locked hc hr => exact .locked (ht.trans hc) (hroom.mpr hr)
  | consuming hin hr hu =>
    rw [← hqueue]
    exact .consuming (by rwa [ht]) (mt hroom.mp hr) ((hpolls _).mpr hu)
  | full hin hr hnone =>
    exact .full (by rwa [ht]) (mt hroom.mp hr) fun u hu => hnone u ((hpolls u).mp hu)

/-- The thread that has to move next has the lock, or is the poller. -/
theorem Section.mover {t u : T} {k : Nat} (h : Section t k (some u) s) :
    (u = t ∧ s.pc u ≠ .consuming) ∨ s.pc u = .consuming := by
  cases h with
  | pushed hc | pushing hc | locked hc => exact .inl ⟨rfl, by simp [hc]⟩
  | consuming _ _ hu => exact .inr hu

/-- Somebody polls, and `t` does not wait for this. -/
theorem Section.polled {t u : T} {k : Nat} {i : Option T} (h : Section t k i s)
    (hnear : Room s ∨ s.pc t = .pushed) (hroom : Room s → Room s') (hut : u ≠ t)
    (hothers : ∀ v, v ≠ u → s'.pc v = s.pc v) : Section t k i s' ∧ ¬ Moves i s es s' := by
  have hct := hothers t hut.symm
  have hstill : ∀ {c : Pc α}, s.pc t = c → c ≠ .consuming → ¬ Moves (some t) s es s' := by
    rintro c hc hne (hmoves | ⟨hpolls, -⟩)
    · exact hmoves hct
    · exact hne (hc.symm.trans hpolls)
  have hfull : ¬ Room s → (s.pc t).inside = true → False := by
    intro hfull hin
    have hc := hnear.resolve_left hfull
    rw [hc] at hin
    cases hin
  cases h with
  | pushed hc => exact ⟨.pushed (hct.trans hc), hstill hc (by simp)⟩
  | pushing hc hr => exact ⟨.pushing (hct.trans hc) (hroom hr), hstill hc (by simp)⟩
  | locked hc hr => exact ⟨.locked (hct.trans hc) (hroom hr), hstill hc (by simp)⟩
  | consuming hin hr _ | full hin hr _ => exact (hfull hr hin).elim

/-- `t` waits for room, and the poller makes it. -/
theorem Section.waiting {t u : T} {k : Nat} {i : Option T} (h : Section t k i s)
    (hu : s.pc u = .consuming) (hwaits : ¬ (Room s ∨ s.pc t = .pushed)) :
    k = s.queue.length + 3 ∧ (s.pc t).inside = true := by
  cases h with
  | pushed hc => exact absurd (.inr hc) hwaits
  | pushing _ hroom | locked _ hroom => exact absurd (.inl hroom) hwaits
  | consuming hin => exact ⟨rfl, hin⟩
  | full _ _ hnone => exact absurd hu (hnone u)

variable [DecidableEq T]

/-- A thread moves nobody but itself. -/
theorem Own.others {t u : T} (hs : Own t s es s') (hu : u ≠ t) : s'.pc u = s.pc u := by
  cases hs with
  | call | push | full | store | finish | consume | consumeEnd => exact Function.update_of_ne hu ..
  | race | empty | add => rfl

theorem Own.not_locking {t : T} {x : α} (hs : Own t s es s') : s.pc t ≠ .locking x := by
  intro hx
  cases hs with
  | call hc | push hc | full hc | store hc | race hc | finish hc | empty hc | consume hc | add hc
  | consumeEnd hc => cases hx.symm.trans hc

/-- Another thread moves, and is not polling. -/
theorem Section.other {t u : T} {k : Nat} {i : Option T} {c : Pc α} (h : Section t k i s)
    (hut : u ≠ t) (hc : s.pc u ≠ .consuming) (hc' : c ≠ .consuming) (hes : ∀ x, .added x ∉ es) :
    Section t k i (s.goto u c) ∧ ¬ Moves i s es (s.goto u c) := by
  have hpolls : ∀ v, (s.goto u c).pc v = .consuming ↔ s.pc v = .consuming := by
    intro v
    by_cases hv : v = u
    · rw [hv, pc_goto_self]
      exact iff_of_false hc' hc
    · rw [pc_goto_of_ne hv]
  refine ⟨h.congr (pc_goto_of_ne hut.symm) rfl rfl hpolls, fun hmoves => ?_⟩
  cases i with
  | none =>
    obtain ⟨v, hv, hv'⟩ := hmoves
    cases hv.symm.trans ((hpolls v).mp hv')
  | some v =>
    have hvu : v ≠ u := by
      rintro rfl
      rcases h.mover with ⟨hvt, -⟩ | hv
      · exact hut hvt
      · exact hc hv
    rcases hmoves with hmoves | ⟨-, x, hx⟩
    · exact hmoves (pc_goto_of_ne hvu)
    · exact hes x hx

/-- `t` moves between two attempts to push. -/
theorem Section.retry {t : T} {k : Nat} {i : Option T} {c : Pc α} (h : Section t k i s)
    (hfull : ¬ Room s) (hin : (s.pc t).inside = true) (hc : c.inside = true) :
    Section t k i (s.goto t c) ∧ ¬ Moves i s [] (s.goto t c) := by
  have hct : (s.goto t c).pc t = c := pc_goto_self
  have hpolls : ∀ v, s.pc v = .consuming → v ≠ t := by
    rintro v hv rfl
    rw [hv] at hin
    cases hin
  cases h with
  | pushed ht =>
    rw [ht] at hin
    cases hin
  | pushing _ hroom | locked _ hroom => exact absurd hroom hfull
  | @consuming _ v _ _ hv =>
    have hsame : (s.goto t c).pc v = s.pc v := pc_goto_of_ne (hpolls v hv)
    refine ⟨.consuming (s := s.goto t c) (by rwa [hct]) hfull (hsame.trans hv), fun hmoves => ?_⟩
    rcases hmoves with hmoves | ⟨-, x, hx⟩
    · exact hmoves hsame
    · cases hx
  | full _ _ hnone =>
    have hnone' : ∀ v, (s.goto t c).pc v ≠ .consuming := by
      intro v hv
      by_cases hvt : v = t
      · rw [hvt, hct] at hv
        rw [hv] at hc
        cases hc
      · rw [pc_goto_of_ne hvt] at hv
        exact hnone v hv
    exact ⟨.full (s := s.goto t c) (by rwa [hct]) hfull hnone', fun ⟨v, _, hv⟩ => hnone' v hv⟩

/-- **What a step does while `t` has the lock**: `t` puts its range into the queue, or its `push`
comes nearer to its end, or nothing changes and the thread that has to move has not moved. -/
theorem section_step {t u : T} {k : Nat} {i : Option T} (h : Section t k i s)
    (hle : s.queue.length + s.consumed ≤ wrQueueCapacity)
    (hone : ∀ v, (s.pc v).inside = true → v = t) (hin : u = t → (s.pc t).inside = true)
    (hs : Own u s es s') :
    (∃ x, s.pc t = .pushing x ∧ es = [.pushed t x] ∧ s'.pc t = .pushed) ∨
    (s'.pc t).pending = (s.pc t).pending ∧
      ((∃ k' < k, ∃ i', Section t k' i' s') ∨ (Section t k i s' ∧ ¬ Moves i s es s')) := by
  -- a thread outside is not `t`
  have hother : ∀ {c : Pc α}, s.pc u = c → c.inside = false → u ≠ t := by
    rintro c rfl hout rfl
    rw [hin rfl] at hout
    cases hout
  -- the poller does not move `t`
  have hpoller : s.pc u = .consuming → u ≠ t ∧ (s'.pc t).pending = (s.pc t).pending := by
    intro hc
    have hut := hother hc rfl
    exact ⟨hut, congrArg Pc.pending (hs.others hut.symm)⟩
  cases hs with
  | call hc | finish hc =>
    have hut := hother hc rfl
    exact .inr ⟨congrArg Pc.pending (pc_goto_of_ne hut.symm),
      .inr (h.other hut (by simp [hc]) (by simp) (by simp))⟩
  | empty hc =>
    refine .inr ⟨rfl, .inr ⟨h, fun hmoves => ?_⟩⟩
    cases i with
    | none =>
      obtain ⟨v, hv, hv'⟩ := hmoves
      cases hv.symm.trans hv'
    | some v => exact hmoves.elim (fun hne => hne rfl) fun ⟨_, x, hx⟩ => by cases hx
  | race hc hv hne =>
    exact absurd ((hone _ (by rw [hv]; rfl)).trans (hone _ (by rw [hc]; rfl)).symm) hne
  | @push x hc =>
    obtain rfl := hone u (by rw [hc]; rfl)
    have hpending : ((s.goto u (.pushing x)).pc u).pending = (s.pc u).pending := by
      rw [pc_goto_self, hc]
      rfl
    by_cases hroom : Room s
    · cases h with
      | locked => exact .inr ⟨hpending, .inl ⟨1, by omega, _, .pushing (x := x) pc_goto_self hroom⟩⟩
      | pushed hc' | pushing hc' => cases hc.symm.trans hc'
      | consuming _ hfull | full _ hfull => exact absurd hroom hfull
    · exact .inr ⟨hpending, .inr (h.retry hroom (by rw [hc]; rfl) rfl)⟩
  | full hc hfull =>
    obtain rfl := hone u (by rw [hc]; rfl)
    refine .inr ⟨?_, .inr (h.retry (Nat.not_lt.mpr hfull) (by rw [hc]; rfl) rfl)⟩
    rw [pc_goto_self, hc]
    rfl
  | store hc hroom =>
    obtain rfl := hone u (by rw [hc]; rfl)
    exact .inl ⟨_, hc, rfl, pc_goto_self⟩
  | consume hc hnone hne =>
    have hut := hother hc rfl
    have hothers : ∀ v, v ≠ u → (s.goto u .consuming).pc v = s.pc v := fun v hv =>
      pc_goto_of_ne hv
    refine .inr ⟨congrArg Pc.pending (hothers t hut.symm), ?_⟩
    by_cases hnear : Room s ∨ s.pc t = .pushed
    · exact .inr (h.polled hnear id hut hothers)
    · cases h with
      | pushed hc' => exact absurd (.inr hc') hnear
      | pushing _ hroom | locked _ hroom => exact absurd (.inl hroom) hnear
      | consuming _ _ hv => exact absurd hv (hnone _)
      | full ht hfull _ =>
        refine .inl ⟨s.queue.length + 3, by omega, some u, ?_⟩
        refine .consuming (s := s.goto u .consuming) ?_ hfull pc_goto_self
        rwa [hothers t hut.symm]
  | @add x rest hc hqueue =>
    obtain ⟨hut, hpending⟩ := hpoller hc
    refine .inr ⟨hpending, ?_⟩
    -- a range that has been read still takes its room
    have hsum : rest.length + (s.consumed + 1) = s.queue.length + s.consumed := by
      rw [hqueue, List.length_cons]
      omega
    by_cases hnear : Room s ∨ s.pc t = .pushed
    · refine .inr (h.polled hnear (fun hroom => ?_) hut fun v _ => rfl)
      exact hsum.trans_lt hroom
    · obtain ⟨rfl, ht⟩ := h.waiting hc hnear
      refine .inl ⟨rest.length + 3, ?_, some u, .consuming (s := { s with
        queue := rest, consumed := s.consumed + 1 }) ht (fun hroom => hnear (.inl ?_)) hc⟩
      · rw [hqueue, List.length_cons]
        omega
      · exact hsum.symm.trans_lt hroom
  | consumeEnd hc hpos =>
    obtain ⟨hut, hpending⟩ := hpoller hc
    refine .inr ⟨hpending, ?_⟩
    have hroom : Room { s.goto u .idle with consumed := 0 } :=
      show s.queue.length + 0 < wrQueueCapacity by omega
    by_cases hnear : Room s ∨ s.pc t = .pushed
    · exact .inr (h.polled hnear (fun _ => hroom) hut fun v hv => pc_goto_of_ne hv)
    · obtain ⟨rfl, ht⟩ := h.waiting hc hnear
      have ht' : (({ s.goto u .idle with consumed := 0 } : State T α).pc t).inside = true := by
        rwa [show _ = s.pc t from pc_goto_of_ne hut.symm]
      obtain ⟨k', hk, i', hsection⟩ := section_room ht' hroom
      exact .inl ⟨k', by omega, i', hsection⟩

/-- The room for what `consume_all` has read is given back when it is done. -/
theorem given_step {u : T} (h : (∀ t, s.pc t ≠ .consuming) → s.consumed = 0) (hs : Own u s es s')
    (hnone : ∀ t, s'.pc t ≠ .consuming) : s'.consumed = 0 := by
  -- a thread that was not polling moves
  have hback : ∀ {c : Pc α}, s.pc u ≠ .consuming → s'.pc = (s.goto u c).pc →
      ∀ t, s.pc t ≠ .consuming := by
    intro c hc hpc t ht
    have htu : t ≠ u := by
      rintro rfl
      exact hc ht
    refine hnone t ?_
    rw [hpc, pc_goto_of_ne htu]
    exact ht
  cases hs with
  | call hc | push hc | full hc | store hc | finish hc => exact h (hback (by simp [hc]) rfl)
  | consume hc => exact absurd pc_goto_self (hnone u)
  | race | empty => exact h hnone
  | add hc => exact absurd hc (hnone u)
  | consumeEnd => rfl

end Section

/-! ## Between the lock and the queue -/

section Over

variable {size : Nat}

/-- Where a thread can be in `enqueue` and in the lock. -/
inductive Together : Pc α → SpinLock.Pc size → Prop where
  | idle : Together .idle .idle
  | consuming : Together .consuming .idle
  | called {x : α} : Together (.locking x) .idle
  | waiting {x : α} {ticket : Nat} : Together (.locking x) (.spinning ticket)
  | locked {x : α} : Together (.locked x) .holding
  | pushing {x : α} : Together (.pushing x) .holding
  | pushed : Together .pushed .holding
  | releasing {idx : Fin size} : Together .pushed (.releasing idx)
  | released : Together .pushed .idle

/-- Nobody is in `trylock`. -/
theorem Together.not_try {p : Pc α} {k : SpinLock.Pc size} (h : Together p k) (head : Nat) :
    k ≠ .tried head ∧ k ≠ .matched head := by
  cases h <;> simp

/-- The thread that has the lock and has left its critical section has pushed. -/
theorem Together.pushed_of_holding {p : Pc α} (h : Together p (.holding : SpinLock.Pc size))
    (hp : ¬ p.inside = true) : p = .pushed := by
  cases h with
  | locked | pushing => exact absurd rfl hp
  | pushed => rfl

variable [DecidableEq T]

/-- A step in `enqueue` or `dequeueAll` leaves the lock where it is. -/
theorem Together.own {t : T} {s s' : State T α} {es : List (Event T α)} {k : SpinLock.Pc size}
    (h : Together (s.pc t) k)
    (hfree : k.phase = .outside ∨ k.phase = .inside ∧ (s.pc t).inside = true)
    (hs : Own t s es s') : Together (s'.pc t) k := by
  have hnew : ∀ {p : Pc α}, s'.pc = (s.goto t p).pc → s'.pc t = p := fun hpc => by
    rw [hpc, pc_goto_self]
  cases hs with
  | call hc | push hc | full hc | store hc | consume hc | consumeEnd hc =>
    rw [hnew rfl]
    rw [hc] at h
    cases h
    constructor
  | finish hc =>
    rw [hnew rfl]
    rw [hc] at h hfree
    -- the thread has called `unlock`
    have hout := hfree.resolve_right fun hin => Bool.false_ne_true hin.2
    cases h with
    | released => exact .idle
    | pushed | releasing => cases hout
  | race | empty | add => exact h

variable [NeZero size] {c c' : SpinLock.State T size × State T α}
  {tr es : List (SpinLock.Event T ⊕ Event T α)}

/-- The places fit, whatever is done. -/
theorem together_step (h : ∀ t, Together (c.2.pc t) (c.1.pc t))
    (hs : ((client T α).behind (SpinLock.lock T size)).step c es c') (t : T) :
    Together (c'.2.pc t) (c'.1.pc t) := by
  cases hs with
  | @lock u k k' s is hl hquiet hwants hleave =>
    have hu : Together (s.pc u) (k.pc u) := h u
    by_cases htu : t = u
    · subst htu
      show Together (s.pc t) (k'.pc t)
      rcases SpinLock.lock_cases hl hu.not_try with rfl | ⟨hidle, hnew⟩ | ⟨ticket, hspin, hnew⟩ |
        ⟨hhold, idx, hnew⟩ | ⟨idx, hrel, hnew⟩
      · exact hu
      · obtain ⟨x, hx⟩ := hwants (congrArg SpinLock.Pc.phase hidle) (by
          rw [show (SpinLock.lock T size).phase k' t = _ from congrArg SpinLock.Pc.phase hnew]
          exact fun h => by cases h)
        rw [hnew, hx]
        exact .waiting
      · cases (congrArg SpinLock.Pc.phase hspin).symm.trans
          (hquiet (congrArg SpinLock.Pc.phase hnew))
      · have hp : s.pc t = .pushed := by
          rw [hhold] at hu
          refine hu.pushed_of_holding (hleave (congrArg SpinLock.Pc.phase hhold) fun hin => ?_)
          cases (congrArg SpinLock.Pc.phase hnew).symm.trans hin
        rw [hnew, hp]
        exact .releasing
      · have hp : s.pc t = .pushed := by
          rw [hrel] at hu
          generalize s.pc t = p at hu
          cases hu
          rfl
        rw [hnew, hp]
        exact .released
    · show Together (s.pc t) (k'.pc t)
      rw [hl.2.1 t htu]
      exact h t
  | @enter u k k' s s' is es hl hout hentered henter =>
    obtain ⟨x, hx, rfl, rfl⟩ := henter
    by_cases htu : t = u
    · subst htu
      show Together ((s.goto t (.locked x)).pc t) (k'.pc t)
      rw [pc_goto_self, SpinLock.phase_inside hentered]
      exact .locked
    · show Together ((s.goto u (.locked x)).pc t) (k'.pc t)
      rw [pc_goto_of_ne htu, hl.2.1 t htu]
      exact h t
  | @own u k s s' es hown hfree =>
    by_cases htu : t = u
    · subst htu
      exact (h t).own hfree hown
    · show Together (s'.pc t) (k.pc t)
      rw [hown.others htu]
      exact h t

/-- What holds in every run. -/
structure Sound (tr : List (SpinLock.Event T ⊕ Event T α))
    (c : SpinLock.State T size × State T α) : Prop where
  lock : SpinLock.Inv (lockTrace tr) c.1
  few : (SpinLock.drawn (lockTrace tr)).length < 2 ^ 64
  queue : Inv (clientTrace tr) c.2
  places : ∀ t, Together (c.2.pc t) (c.1.pc t)
  given : (∀ t, c.2.pc t ≠ .consuming) → c.2.consumed = 0

theorem sound_reach (hr : Reach ((client T α).behind (SpinLock.lock T size)) tr c)
    (hfew : (SpinLock.drawn (lockTrace tr)).length < 2 ^ 64) : Sound tr c := by
  obtain ⟨hideal, -⟩ := Client.refines SpinLock.excludes hr hfew
  have hrest : (∀ t, Together (c.2.pc t) (c.1.pc t)) ∧
      ((∀ t, c.2.pc t ≠ .consuming) → c.2.consumed = 0) := by
    refine hr.invariant (I := fun _ c => (∀ t, Together (c.2.pc t) (c.1.pc t)) ∧
      ((∀ t, c.2.pc t ≠ .consuming) → c.2.consumed = 0)) ?_ ?_
    · rintro ⟨k, s⟩ ⟨rfl, hpc, -, hconsumed⟩
      refine ⟨fun t => ?_, fun _ => hconsumed⟩
      rw [hpc t]
      exact .idle
    · rintro tr es c c' _ ⟨hplaces, hgiven⟩ hs
      refine ⟨together_step hplaces hs, ?_⟩
      cases hs with
      | lock => exact hgiven
      | @enter t _ _ _ _ _ _ _ _ _ henter =>
        obtain ⟨x, hx, -, rfl⟩ := henter
        refine fun hnone => hgiven fun u hu => ?_
        have hut : u ≠ t := by
          rintro rfl
          cases hx.symm.trans hu
        exact hnone u ((pc_goto_of_ne hut).trans hu)
      | own hown => exact given_step hgiven hown
  exact ⟨SpinLock.inv_reach (SpinLock.lock_machine (Client.lock_reach hr)) hfew, hfew,
    inv_ideal hideal, hrest.1, hrest.2⟩

section Places

variable (h : Sound tr c)

include h

/-- Only the thread that has the lock is in its critical section. -/
theorem Sound.only {t u : T} (ht : c.1.pc t = .holding) (hu : (c.2.pc u).inside = true) :
    u = t := by
  refine h.lock.critical u t (.inl ?_) (.inl ht)
  have hplace := h.places u
  generalize c.2.pc u = p at hplace hu
  generalize c.1.pc u = k at hplace
  cases hplace with
  | locked | pushing => rfl
  | idle | consuming | called | waiting | pushed | releasing | released => cases hu

theorem Sound.of_holding {t : T} (ht : c.1.pc t = .holding) :
    (c.2.pc t).inside = true ∨ c.2.pc t = .pushed := by
  have hplace := h.places t
  rw [ht] at hplace
  exact or_iff_not_imp_left.mpr hplace.pushed_of_holding

theorem Sound.of_spinning {t : T} {ticket : Nat} (ht : c.1.pc t = .spinning ticket) :
    ∃ x, c.2.pc t = .locking x := by
  have hplace := h.places t
  rw [ht] at hplace
  generalize c.2.pc t = p at hplace
  cases hplace
  exact ⟨_, rfl⟩

theorem Sound.of_releasing {t : T} {idx : Fin size} (ht : c.1.pc t = .releasing idx) :
    c.2.pc t = .pushed := by
  have hplace := h.places t
  rw [ht] at hplace
  generalize c.2.pc t = p at hplace
  cases hplace
  rfl

theorem Sound.of_polling {t : T} (ht : c.2.pc t = .idle ∨ c.2.pc t = .consuming) :
    c.1.pc t = .idle := by
  have hplace := h.places t
  generalize c.1.pc t = k at hplace
  rcases ht with ht | ht <;>
  · rw [ht] at hplace
    cases hplace
    rfl

end Places

/-- A thread in a call goes on; the poller calls `dequeueAll`. -/
def Goes : Option T →
    Action (SpinLock.State T size × State T α) (SpinLock.Event T ⊕ Event T α)
  | none, c, es, c' => ((client T α).behind (SpinLock.lock T size)).step c es c' ∧
      Moves none c.2 (clientTrace es) c'.2
  | some t, c, es, c' => ((client T α).behind (SpinLock.lock T size)).step c es c' ∧
      c.2.pc t ≠ .idle ∧ (c'.1.pc t ≠ c.1.pc t ∨ Moves (some t) c.2 (clientTrace es) c'.2)

theorem not_goes {t : T} (hlock : c'.1.pc t = c.1.pc t)
    (hclient : c'.2.pc t = c.2.pc t) (hc : c.2.pc t ≠ .consuming) : ¬ Goes (some t) c es c' := by
  rintro ⟨-, -, hne | hne | ⟨hpolls, -⟩⟩
  · exact hne hlock
  · exact hne hclient
  · exact hc hpolls

/-- In a step outside the lock a thread goes on by moving in the queue. -/
theorem goes_own {i : Option T} {k : SpinLock.State T size} {s s' : State T α}
    {es : List (Event T α)} (h : Goes i (k, s) (es.map .inr) (k, s')) : Moves i s es s' := by
  cases i with
  | none => simpa using h.2
  | some t => simpa using h.2.2

/-! ## What can be done -/

/-- The holder of the lock calls `unlock`. -/
theorem unlock_enabled {t : T} (ht : c.1.pc t = .holding) (hc : c.2.pc t = .pushed) :
    Enabled (Goes (some t)) c := by
  have hpc : (c.1.goto t (.releasing (SpinLock.slot size (SpinLock.succSize c.1.next)))).pc t =
      .releasing _ := SpinLock.pc_goto_self
  refine ⟨_, _, .lock (SpinLock.lock_step (.unlockNext ht) rfl (by simp))
    (fun hin => by cases (SpinLock.phase_inside hin).symm.trans hpc)
    (fun hout => by cases (congrArg SpinLock.Pc.phase ht).symm.trans hout) fun _ _ hin => ?_,
    by simp [hc], .inl ?_⟩
  · cases (congrArg Pc.inside hc).symm.trans hin
  · show (c.1.goto t _).pc t ≠ _
    rw [hpc, ht]
    simp

/-- It ends `unlock`. -/
theorem Sound.store_enabled (h : Sound tr c) {t : T} {idx : Fin size}
    (ht : c.1.pc t = .releasing idx) : Enabled (Goes (some t)) c := by
  have hc := h.of_releasing ht
  refine ⟨_, _, .lock (SpinLock.lock_step (.unlockStore ht) rfl (by simp))
    (fun hin => by cases (SpinLock.phase_inside hin).symm.trans SpinLock.pc_goto_self)
    (fun hout => by cases (congrArg SpinLock.Pc.phase ht).symm.trans hout)
    (fun hin => by cases (congrArg SpinLock.Pc.phase ht).symm.trans hin), by simp [hc], .inl ?_⟩
  show (c.1.goto t _).pc t ≠ _
  rw [SpinLock.pc_goto_self, ht]
  simp

/-- The thread that the critical section waits for can move. -/
theorem Sound.section_enabled (h : Sound tr c) {t p : T} {k : Nat} {i : Option T}
    (hsection : Section t k i c.2) (ht : c.1.pc t = .holding)
    (hp : c.2.pc p = .idle ∨ c.2.pc p = .consuming) : Enabled (Goes i) c := by
  have hcap : 0 < wrQueueCapacity := by decide
  cases hsection with
  | pushed hc => exact unlock_enabled ht hc
  | @pushing _ x hc hroom =>
    have hin : (c.2.pc t).inside = true := by rw [hc]; rfl
    refine ⟨_, _, .own (.store hc hroom) (.inr ⟨congrArg SpinLock.Pc.phase ht, hin⟩),
      by simp [hc], .inr (.inl ?_)⟩
    show (c.2.goto t .pushed).pc t ≠ _
    rw [pc_goto_self, hc]
    simp
  | @locked _ x hc hroom =>
    have hin : (c.2.pc t).inside = true := by rw [hc]; rfl
    refine ⟨_, _, .own (.push hc) (.inr ⟨congrArg SpinLock.Pc.phase ht, hin⟩),
      by simp [hc], .inr (.inl ?_)⟩
    rw [pc_goto_self, hc]
    simp
  | @consuming _ u _ hfull hu =>
    have hout := congrArg SpinLock.Pc.phase (h.of_polling (.inr hu))
    cases hq : c.2.queue with
    | nil =>
      have hpos : 0 < c.2.consumed := by
        rw [Room, hq] at hfull
        simp only [List.length_nil] at hfull
        omega
      refine ⟨_, _, .own (.consumeEnd hu hpos) (.inl hout), by simp [hu], .inr (.inl ?_)⟩
      show (c.2.goto u .idle).pc u ≠ _
      rw [pc_goto_self, hu]
      simp
    | cons x rest =>
      refine ⟨_, _, .own (.add hu hq) (.inl hout), by simp [hu], .inr (.inr ⟨hu, x, ?_⟩)⟩
      rw [clientTrace_inr]
      exact List.mem_singleton.mpr rfl
  | full _ hfull hnone =>
    have hidle := hp.resolve_right (hnone p)
    have hout := congrArg SpinLock.Pc.phase (h.of_polling (.inl hidle))
    have hne : c.2.queue ≠ [] := by
      intro hq
      rw [Room, hq, h.given hnone] at hfull
      exact hfull hcap
    exact ⟨_, _, .own (.consume hidle hnone hne) (.inl hout), p, hidle, pc_goto_self⟩

/-! ## Waiting for the lock -/

/-- `Near t ticket k i c`: `t` waits with `ticket`, `k` is left to do until it has the lock, and `i`
makes the next move. -/
inductive Near (t : T) (ticket : Nat) : ℕ ×ₗ ℕ → Option T →
    SpinLock.State T size × State T α → Prop where
  /-- `u` has the lock. -/
  | held {k j : Nat} {u : T} {i : Option T} {c : SpinLock.State T size × State T α} :
      SpinLock.Waits t ticket k u c.1 → c.1.pc u = .holding → Section u j i c.2 →
      Near t ticket (toLex (k, j)) i c
  /-- `u` gets the lock, or gives it back. -/
  | passed {k : Nat} {u : T} {c : SpinLock.State T size × State T α} :
      SpinLock.Waits t ticket k u c.1 → c.1.pc u ≠ .holding →
      Near t ticket (toLex (k, 0)) (some u) c

theorem Sound.near (h : Sound tr c) {t u : T} {ticket k : Nat}
    (hw : SpinLock.Waits t ticket k u c.1) : ∃ j i, Near t ticket (toLex (k, j)) i c := by
  by_cases hu : c.1.pc u = .holding
  · obtain ⟨j, i, hsection⟩ := section_exists (h.of_holding hu)
    exact ⟨j, i, .held hw hu hsection⟩
  · exact ⟨0, _, .passed hw hu⟩

/-- The thread that is about to move has called `lock` or `unlock`. -/
theorem Sound.of_passed (h : Sound tr c) {t u : T} {ticket k : Nat}
    (hw : SpinLock.Waits t ticket k u c.1) (hu : c.1.pc u ≠ .holding) :
    ((c.1.pc u).phase = .entering ∨ (c.1.pc u).phase = .leaving) ∧ c.2.pc u ≠ .consuming := by
  obtain ⟨-, hahead⟩ := hw
  cases hahead with
  | held hheld => exact absurd hheld hu
  | free _ hspin =>
    obtain ⟨x, hx⟩ := h.of_spinning hspin
    exact ⟨.inl (by rw [hspin]; rfl), by simp [hx]⟩
  | releasing hrel => exact ⟨.inr (by rw [hrel]; rfl), by simp [h.of_releasing hrel]⟩

theorem Sound.near_enabled (h : Sound tr c) {t p : T} {ticket : Nat} {k : ℕ ×ₗ ℕ} {i : Option T}
    (hnear : Near t ticket k i c) (hp : c.2.pc p = .idle ∨ c.2.pc p = .consuming) :
    Enabled (Goes i) c := by
  cases hnear with
  | held _ hu hsection => exact h.section_enabled hsection hu hp
  | @passed k u _ hw hu =>
    obtain ⟨-, hahead⟩ := hw
    cases hahead with
    | held hheld => exact absurd hheld hu
    | free hnone hspin =>
      obtain ⟨x, hx⟩ := h.of_spinning hspin
      have hslot := h.lock.handed fun v idx hv => hnone v (.inr ⟨idx, hv⟩)
      refine ⟨_, _, .enter (SpinLock.lock_step (.enter hspin hslot) rfl (by simp))
        (fun hin => by cases (SpinLock.phase_inside hin).symm.trans hspin)
        (congrArg SpinLock.Pc.phase SpinLock.pc_goto_self) ⟨x, hx, rfl, rfl⟩, by simp [hx], .inl ?_⟩
      show (c.1.goto u _).pc u ≠ _
      rw [SpinLock.pc_goto_self, hspin]
      simp
    | releasing hrel => exact h.store_enabled hrel

/-- Nothing happens in the queue, and the thread that the critical section waits for stays where
it is in the lock. -/
theorem Section.still {t : T} {k : Nat} {i : Option T} (h : Sound tr c) (h' : Sound (tr ++ es) c')
    (hsection : Section t k i c.2) (hlock : c'.1.pc t = c.1.pc t) (hclient : c'.2 = c.2)
    (hes : clientTrace es = []) : ¬ Goes i c es c' := by
  cases i with
  | none =>
    rintro ⟨-, u, hu, hu'⟩
    rw [hclient] at hu'
    cases hu.symm.trans hu'
  | some u =>
    have hsame : c'.1.pc u = c.1.pc u := by
      rcases hsection.mover with ⟨rfl, -⟩ | hu
      · exact hlock
      · rw [h.of_polling (.inr hu), h'.of_polling (.inr (by rw [hclient]; exact hu))]
    rintro ⟨-, -, hne | hne | ⟨-, x, hx⟩⟩
    · exact hne hsame
    · exact hne (by rw [hclient])
    · rw [hes] at hx
      cases hx

/-- A thread gets in: nobody has the lock before. -/
theorem Sound.enters_free (h' : Sound (tr ++ es) c') {u v : T}
    (hout : (c.1.pc v).phase ≠ .inside) (hin : (c'.1.pc v).phase = .inside)
    (hothers : ∀ w, w ≠ v → c'.1.pc w = c.1.pc w) : c.1.pc u ≠ .holding := by
  intro hu
  have huv : u ≠ v := by
    rintro rfl
    exact hout (by rw [hu]; rfl)
  have hu' : c'.1.pc u = .holding := (hothers u huv).trans hu
  exact huv (h'.lock.critical u v (.inl hu') (.inl (SpinLock.phase_inside hin)))

/-- A step in the queue: the holder of the lock comes nearer to the end of its section. -/
theorem near_own {t v : T} {ticket : Nat} {k : ℕ ×ₗ ℕ} {i : Option T}
    {k₀ : SpinLock.State T size} {s s' : State T α} {es : List (Event T α)}
    (h : Sound tr (k₀, s)) (hnear : Near t ticket k i (k₀, s)) (hown : Own v s es s')
    (hfree : (k₀.pc v).phase = .outside ∨ (k₀.pc v).phase = .inside ∧ (s.pc v).inside = true) :
    (∃ k' < k, ∃ i', Near t ticket k' i' (k₀, s')) ∨
      (Near t ticket k i (k₀, s') ∧ ¬ Goes i (k₀, s) (es.map .inr) (k₀, s')) := by
  cases hnear with
  | @held k j u i _ hw hu hsection =>
    have hin : v = u → (s.pc u).inside = true := by
      rintro rfl
      rcases hfree with hout | ⟨-, hin⟩
      · cases (congrArg SpinLock.Pc.phase hu).symm.trans hout
      · exact hin
    rcases section_step hsection h.queue.room (fun w hw => h.only hu hw) hin hown with
      ⟨y, hy, -, hpushed⟩ | ⟨-, ⟨j', hj, i', hsection'⟩ | ⟨hsection', hstill⟩⟩
    · have hj : 0 < j := by
        cases hsection with
        | pushed hc => cases hy.symm.trans hc
        | pushing | locked | consuming | full => omega
      exact .inl ⟨toLex (k, 0), Prod.Lex.toLex_lt_toLex.mpr (.inr ⟨rfl, hj⟩), _,
        .held hw hu (.pushed hpushed)⟩
    · exact .inl ⟨toLex (k, j'), Prod.Lex.toLex_lt_toLex.mpr (.inr ⟨rfl, hj⟩), _,
        .held hw hu hsection'⟩
    · exact .inr ⟨.held hw hu hsection', fun hgoes => hstill (goes_own hgoes)⟩
  | @passed k u _ hw hu =>
    obtain ⟨hphase, hpolls⟩ := h.of_passed hw hu
    have huv : u ≠ v := by
      rintro rfl
      rcases hfree with hout | ⟨hin, -⟩
      · rcases hphase with hphase | hphase <;> cases hphase.symm.trans hout
      · rcases hphase with hphase | hphase <;> cases hphase.symm.trans hin
    exact .inr ⟨.passed hw hu, not_goes rfl (hown.others huv) hpolls⟩

/-- The lock comes nearer. -/
theorem Sound.nearer (h : Sound tr c) {t u : T} {ticket k k' j : Nat} (hk : k' < k)
    (hw : SpinLock.Waits t ticket k' u c.1) :
    ∃ l < toLex (k, j), ∃ i, Near t ticket l i c := by
  obtain ⟨j', i', hnear⟩ := h.near hw
  exact ⟨_, Prod.Lex.toLex_lt_toLex.mpr (.inl hk), i', hnear⟩

/-- **What a step does while `t` waits for the lock**: `t` gets it, or it comes nearer, or nothing
changes and the thread that has to move has not moved. -/
theorem near_step (h : Sound tr c) (h' : Sound (tr ++ es) c') {t : T} {ticket : Nat} {k : ℕ ×ₗ ℕ}
    {i : Option T} {x : α} (hnear : Near t ticket k i c) (hx : c.2.pc t = .locking x)
    (hs : ((client T α).behind (SpinLock.lock T size)).step c es c') :
    c'.2.pc t = .locked x ∨ (∃ k' < k, ∃ i', Near t ticket k' i' c') ∨
      (Near t ticket k i c' ∧ ¬ Goes i c es c') := by
  have hfew : c.1.head < 2 ^ 64 := by
    rw [← h.lock.length_drawn]
    exact h.few
  have hlockInv := h'.lock
  rw [lockTrace_append] at hlockInv
  cases hs with
  | @lock v k₀ k₁ s is hl hquiet hwants hleave =>
    rw [lockTrace_inl] at hlockInv
    have hnone : SpinLock.Event.entered t ticket ∉ is := by
      intro hmem
      have henters : (t, ticket) ∈ SpinLock.entered is := List.mem_filterMap.mpr ⟨_, hmem, rfl⟩
      rw [(SpinLock.lock_entered hl).2 hquiet] at henters
      cases henters
    cases hnear with
    | held hw hu hsection =>
      rcases SpinLock.ahead_step h.lock hlockInv hfew hw hl.1 with hmem | ⟨k', hk, u', hw'⟩ |
        ⟨hw', hsame⟩
      · exact absurd hmem hnone
      · exact .inr (.inl (h'.nearer hk hw'))
      · exact .inr (.inr ⟨.held hw' (hsame.trans hu) hsection,
          Section.still h h' hsection hsame rfl (clientTrace_inl is)⟩)
    | passed hw hu =>
      rcases SpinLock.ahead_step h.lock hlockInv hfew hw hl.1 with hmem | ⟨k', hk, u', hw'⟩ |
        ⟨hw', hsame⟩
      · exact absurd hmem hnone
      · exact .inr (.inl (h'.nearer hk hw'))
      · refine .inr (.inr ⟨.passed hw' ?_, not_goes hsame rfl (h.of_passed hw hu).2⟩)
        rw [hsame]
        exact hu
  | @enter v k₀ k₁ s s' is es hl hout hentered henter =>
    rw [lockTrace_append, lockTrace_inl, lockTrace_inr, List.append_nil] at hlockInv
    obtain ⟨y, hy, rfl, rfl⟩ := henter
    have hfree : ∀ u, k₀.pc u ≠ .holding := fun u =>
      Sound.enters_free (c := (k₀, s)) h' hout hentered fun w hw => hl.2.1 w hw
    cases hnear with
    | held _ hu _ => exact absurd hu (hfree _)
    | @passed k u _ hw hu =>
      rcases SpinLock.ahead_step h.lock hlockInv hfew hw hl.1 with hmem | ⟨k', hk, u', hw'⟩ |
        ⟨hw', hsame⟩
      · -- the thread that gets in is `t`
        have henters : t ∈ (SpinLock.entered is).map Prod.fst :=
          List.mem_map.mpr ⟨(t, ticket), List.mem_filterMap.mpr ⟨_, hmem, rfl⟩, rfl⟩
        rw [(SpinLock.lock_entered hl).1 hentered hout, List.mem_singleton] at henters
        subst henters
        obtain rfl := Pc.locking.inj (hx.symm.trans hy)
        exact .inl pc_goto_self
      · exact .inr (.inl (h'.nearer hk hw'))
      · have huv : u ≠ v := by
          rintro rfl
          exact hu (hsame.symm.trans (SpinLock.phase_inside hentered))
        refine .inr (.inr ⟨.passed hw' ?_, not_goes hsame (pc_goto_of_ne huv)
          (h.of_passed hw hu).2⟩)
        rw [hsame]
        exact hu
  | own hown hfree => exact .inr (near_own h hnear hown hfree)

/-! ## The stages of a call -/

/-- `t` calls `enqueue`. -/
theorem called_step (h : Sound tr c) {t : T} {x : α} (hmem : .inr (.called t x) ∈ es)
    (hs : ((client T α).behind (SpinLock.lock T size)).step c es c') :
    c'.2.pc t = .locking x ∧ c'.1.pc t = .idle := by
  cases hs with
  | lock => simp at hmem
  | enter _ _ _ henter =>
    obtain ⟨y, -, rfl, -⟩ := henter
    simp at hmem
  | @own v k s s' es hown hfree =>
    have hmem : Event.called t x ∈ es := by simpa using hmem
    cases hown with
    | call hc =>
      obtain ⟨rfl, rfl⟩ := Event.called.inj (List.mem_singleton.mp hmem)
      exact ⟨pc_goto_self, h.of_polling (.inl hc)⟩
    | store | add => cases List.mem_singleton.mp hmem
    | push | full | race | finish | empty | consume | consumeEnd => cases hmem

/-- `t` has called `enqueue`, and takes a ticket. -/
theorem locking_step (h : Sound tr c) {t : T} {x : α} (hx : c.2.pc t = .locking x)
    (hs : ((client T α).behind (SpinLock.lock T size)).step c es c') :
    (c'.2.pc t = .locking x ∧ (c'.1.pc t = c.1.pc t ∨ ∃ ticket, c'.1.pc t = .spinning ticket)) ∨
      (c'.2.pc t = .locked x ∧ ∃ ticket, c.1.pc t = .spinning ticket) := by
  cases hs with
  | @lock v k k' s is hl hquiet _ hleave =>
    refine .inl ⟨hx, ?_⟩
    by_cases htv : t = v
    · subst htv
      rcases SpinLock.lock_cases hl (h.places t).not_try with rfl | ⟨-, hnew⟩ | ⟨_, hspin, hnew⟩ |
        ⟨hhold, -⟩ | ⟨idx, hrel, -⟩
      · exact .inl rfl
      · exact .inr ⟨_, hnew⟩
      · cases (congrArg SpinLock.Pc.phase hspin).symm.trans
          (hquiet (congrArg SpinLock.Pc.phase hnew))
      · rcases h.of_holding hhold with hin | hpushed
        · cases (congrArg Pc.inside hx).symm.trans hin
        · cases hx.symm.trans hpushed
      · cases hx.symm.trans (h.of_releasing hrel)
    · exact .inl (hl.2.1 t htv)
  | @enter v k k' s s' is es hl hout hentered henter =>
    obtain ⟨y, hy, rfl, rfl⟩ := henter
    by_cases htv : t = v
    · subst htv
      obtain rfl := Pc.locking.inj (hx.symm.trans hy)
      refine .inr ⟨pc_goto_self, ?_⟩
      have hin := SpinLock.phase_inside hentered
      rcases SpinLock.lock_cases hl (h.places t).not_try with rfl | ⟨-, hnew⟩ | ⟨_, hspin, -⟩ |
        ⟨hhold, -⟩ | ⟨idx, -, hnew⟩
      · exact absurd hentered hout
      · cases hin.symm.trans hnew
      · exact ⟨_, hspin⟩
      · exact absurd (congrArg SpinLock.Pc.phase hhold) hout
      · cases hin.symm.trans hnew
    · exact .inl ⟨(pc_goto_of_ne htv).trans hx, .inl (hl.2.1 t htv)⟩
  | @own v k s s' es hown _ =>
    have htv : t ≠ v := by
      rintro rfl
      exact hown.not_locking hx
    exact .inl ⟨(hown.others htv).trans hx, .inl rfl⟩

/-- A thread that does not call `enqueue` polls. -/
theorem polling_step {p : T} (hp : c.2.pc p = .idle ∨ c.2.pc p = .consuming)
    (hs : ((client T α).behind (SpinLock.lock T size)).step c es c')
    (hes : ∀ x, .inr (.called p x) ∉ es) : c'.2.pc p = .idle ∨ c'.2.pc p = .consuming := by
  -- it is in no call of `enqueue`
  have nocall : ∀ {q : Pc α}, c.2.pc p = q → q = .idle ∨ q = .consuming := fun hq => hq ▸ hp
  cases hs with
  | lock => exact hp
  | @enter v k k' s s' is es _ _ _ henter =>
    obtain ⟨y, hy, rfl, rfl⟩ := henter
    have hpv : p ≠ v := by
      rintro rfl
      rcases nocall hy with hq | hq <;> cases hq
    rw [show (s.goto v (.locked y)).pc p = s.pc p from pc_goto_of_ne hpv]
    exact hp
  | @own v k s s' es hown _ =>
    by_cases hpv : p = v
    · subst hpv
      cases hown with
      | @call x _ => exact absurd (by simp) (hes x)
      | push hc | full hc | store hc | race hc | finish hc =>
        rcases nocall hc with hq | hq <;> cases hq
      | empty | add => exact hp
      | consume => exact .inr pc_goto_self
      | consumeEnd => exact .inl pc_goto_self
    · show s'.pc p = .idle ∨ s'.pc p = .consuming
      rw [hown.others hpv]
      exact hp

theorem goes_step {i : Option T} (h : Goes i c es c') :
    ((client T α).behind (SpinLock.lock T size)).step c es c' := by
  cases i with
  | none => exact h.1
  | some t => exact h.1

/-- What is known on the way; `p` is the poller, which does not call `enqueue`. -/
def OnTheWay (p : T) (tr : List (SpinLock.Event T ⊕ Event T α))
    (c : SpinLock.State T size × State T α) : Prop :=
  Sound tr c ∧ (c.2.pc p = .idle ∨ c.2.pc p = .consuming)

/-- A thread that has called `enqueue` takes a ticket. -/
theorem drawRanking (p t : T) (x : α) :
    Ranking ((client T α).behind (SpinLock.lock T size)) Goes (OnTheWay p)
      (fun _ c => c.2.pc t = .locking x ∧ ∃ ticket, c.1.pc t = .spinning ticket)
      (fun (k : ℕ) i c => k = 0 ∧ i = some t ∧ c.2.pc t = .locking x ∧ c.1.pc t = .idle) where
  isStep _ _ _ _ h := goes_step h
  enabled := by
    rintro tr c k i - ⟨-, rfl, hx, hidle⟩
    have hpc : (c.1.goto t (.spinning c.1.head)).pc t = .spinning c.1.head :=
      SpinLock.pc_goto_self
    refine ⟨_, _, .lock (SpinLock.lock_step (.draw hidle) rfl (by simp))
      (fun hin => by cases (SpinLock.phase_inside hin).symm.trans hpc) (fun _ _ => ⟨x, hx⟩)
      (fun hin => by cases (SpinLock.phase_inside hin).symm.trans hidle), by simp [hx], .inl ?_⟩
    show (c.1.goto t (.spinning c.1.head)).pc t ≠ _
    rw [hpc, hidle]
    simp
  step := by
    rintro tr c es c' k i ⟨h, -⟩ - ⟨rfl, rfl, hx, hidle⟩ hs
    rcases locking_step h hx hs with ⟨hx', hsame | hdrawn⟩ | ⟨-, ticket, hspin⟩
    · exact .inr (.inr ⟨⟨rfl, rfl, hx', hsame.trans hidle⟩,
        not_goes hsame (hx'.trans hx.symm) (by simp [hx])⟩)
    · exact .inl ⟨hx', hdrawn⟩
    · cases hidle.symm.trans hspin

/-- It gets the lock. -/
theorem waitRanking (p t : T) (x : α) (ticket : Nat) :
    Ranking ((client T α).behind (SpinLock.lock T size)) Goes (OnTheWay p)
      (fun _ c => c.2.pc t = .locked x)
      (fun (k : ℕ ×ₗ ℕ) i c => Near t ticket k i c ∧ c.2.pc t = .locking x) where
  isStep _ _ _ _ h := goes_step h
  enabled _ _ _ _ hI hw := hI.1.near_enabled hw.1 hI.2
  step := by
    rintro tr c es c' k i ⟨h, -⟩ ⟨h', -⟩ ⟨hnear, hx⟩ hs
    rcases locking_step h hx hs with ⟨hx', -⟩ | ⟨hlocked, -⟩
    · rcases near_step h h' hnear hx hs with hlocked | ⟨k', hk, i', hnear'⟩ | ⟨hnear', hstill⟩
      · exact .inl hlocked
      · exact .inr (.inl ⟨k', hk, i', hnear', hx'⟩)
      · exact .inr (.inr ⟨⟨hnear', hx'⟩, hstill⟩)
    · exact .inl hlocked

/-- It puts its range into the queue. -/
theorem pushRanking (p t : T) (x : α) :
    Ranking ((client T α).behind (SpinLock.lock T size)) Goes (OnTheWay p)
      (fun es c => .inr (.pushed t x) ∈ es ∧ c.2.pc t = .pushed)
      (fun (k : ℕ) i c => Section t k i c.2 ∧ (c.2.pc t).pending = [x] ∧
        c.1.pc t = .holding) where
  isStep _ _ _ _ h := goes_step h
  enabled _ _ _ _ hI hw := hI.1.section_enabled hw.1 hw.2.2 hI.2
  step := by
    rintro tr c es c' k i ⟨h, -⟩ ⟨h', -⟩ ⟨hsection, hx, hheld⟩ hs
    have hin : (c.2.pc t).inside = true := by
      refine (h.of_holding hheld).resolve_right fun hc => ?_
      rw [hc] at hx
      cases hx
    cases hs with
    | @lock v k k' s is hl _ _ hleave =>
      have hsame : k'.pc t = k.pc t := by
        by_cases htv : t = v
        · subst htv
          by_contra hne
          -- it does not call `unlock` yet
          refine hleave (congrArg SpinLock.Pc.phase hheld) (fun hin' => ?_) hin
          exact hne ((SpinLock.phase_inside hin').trans hheld.symm)
        · exact hl.2.1 t htv
      exact .inr (.inr ⟨⟨hsection, hx, hsame.trans hheld⟩,
        Section.still h h' hsection hsame rfl (clientTrace_inl is)⟩)
    | @enter v k k' s s' is es hl hout hentered henter =>
      exact absurd hheld (Sound.enters_free (c := (k, s)) h' hout hentered
        fun w hw => hl.2.1 w hw)
    | @own v k s s' es hown hfree =>
      rcases section_step hsection h.queue.room (fun w hw => h.only hheld hw) (fun _ => hin) hown
        with ⟨y, hy, rfl, hpushed⟩ | ⟨hpending, ⟨k', hk, i', hsection'⟩ | ⟨hsection', hstill⟩⟩
      · have hyx : (s.pc t).pending = [x] := hx
        rw [hy] at hyx
        obtain rfl := List.singleton_inj.mp hyx
        exact .inl ⟨List.mem_singleton.mpr rfl, hpushed⟩
      · exact .inr (.inl ⟨k', hk, i', hsection', hpending.trans hx, hheld⟩)
      · exact .inr (.inr ⟨⟨hsection', hpending.trans hx, hheld⟩,
          fun hgoes => hstill (goes_own hgoes)⟩)

/-- The steps between the end of `push` and the return. -/
def toReturn : SpinLock.Pc size → Nat
  | .holding => 2
  | .releasing _ => 1
  | .idle | .spinning _ | .tried _ | .matched _ => 0

/-- It returns. -/
theorem returnRanking (p t : T) :
    Ranking ((client T α).behind (SpinLock.lock T size)) Goes (OnTheWay p)
      (fun _ c => c.2.pc t = .idle)
      (fun (k : ℕ) i c => k = toReturn (c.1.pc t) ∧ i = some t ∧ c.2.pc t = .pushed) where
  isStep _ _ _ _ h := goes_step h
  enabled := by
    rintro tr c k i ⟨h, -⟩ ⟨-, rfl, hc⟩
    have hplace := h.places t
    rw [hc] at hplace
    cases hk : c.1.pc t with
    | holding => exact unlock_enabled hk hc
    | releasing idx => exact h.store_enabled hk
    | idle =>
      refine ⟨_, _, .own (.finish hc) (.inl (congrArg SpinLock.Pc.phase hk)), by simp [hc],
        .inr (.inl ?_)⟩
      rw [pc_goto_self, hc]
      simp
    | spinning | tried | matched =>
      rw [hk] at hplace
      cases hplace
  step := by
    rintro tr c es c' k i ⟨h, -⟩ - ⟨rfl, rfl, hc⟩ hs
    have stays : c'.2.pc t = .pushed → c'.1.pc t = c.1.pc t →
        (toReturn (c.1.pc t) = toReturn (c'.1.pc t) ∧ some t = some t ∧ c'.2.pc t = .pushed) ∧
          ¬ Goes (some t) c es c' := fun hc' hsame =>
      ⟨⟨congrArg toReturn hsame.symm, rfl, hc'⟩, not_goes hsame (hc'.trans hc.symm) (by simp [hc])⟩
    cases hs with
    | @lock v k k' s is hl hquiet hwants hleave =>
      by_cases htv : t = v
      · subst htv
        rcases SpinLock.lock_cases hl (h.places t).not_try with rfl | ⟨hidle, hnew⟩ |
          ⟨_, hspin, -⟩ | ⟨hhold, idx, hnew⟩ | ⟨idx, hrel, hnew⟩
        · exact .inr (.inr (stays hc rfl))
        · obtain ⟨y, hy⟩ := hwants (congrArg SpinLock.Pc.phase hidle) fun hout => by
            cases (congrArg SpinLock.Pc.phase hnew).symm.trans hout
          cases hc.symm.trans hy
        · obtain ⟨y, hy⟩ := h.of_spinning hspin
          cases hc.symm.trans hy
        · refine .inr (.inl ⟨1, ?_, some t, (congrArg toReturn hnew).symm, rfl, hc⟩)
          rw [hhold]
          exact Nat.one_lt_two
        · refine .inr (.inl ⟨0, ?_, some t, (congrArg toReturn hnew).symm, rfl, hc⟩)
          rw [hrel]
          exact Nat.one_pos
      · exact .inr (.inr (stays hc (hl.2.1 t htv)))
    | @enter v k k' s s' is es hl hout hentered henter =>
      obtain ⟨y, hy, rfl, rfl⟩ := henter
      have htv : t ≠ v := by
        rintro rfl
        cases hc.symm.trans hy
      exact .inr (.inr (stays ((pc_goto_of_ne htv).trans hc) (hl.2.1 t htv)))
    | @own v k s s' es hown hfree =>
      by_cases htv : t = v
      · subst htv
        cases hown with
        | finish => exact .inl pc_goto_self
        | call hc' | push hc' | full hc' | store hc' | race hc' | empty hc' | consume hc'
        | add hc' | consumeEnd hc' => cases hc.symm.trans hc'
      · exact .inr (.inr (stays ((hown.others htv).trans hc) rfl))

/-- **`enqueue` returns**: in an execution in which every thread in a call goes on when it can,
and `dequeueAll` is called when there is something in the queue, every call of `enqueue` gets the
lock, puts its range into the queue and returns, whatever the other threads do and however often
the queue is full. The poller `p` does not call `enqueue`, and the lock draws fewer than `2 ^ 64`
tickets. -/
theorem enqueue_returns {p : T} (e : Execution ((client T α).behind (SpinLock.lock T size)))
    (hfair : ∀ i, e.WeaklyFair (Goes i))
    (hpoller : ∀ n x, .inr (.called p x) ∉ e.events n)
    (hfew : ∀ n, (SpinLock.drawn (lockTrace (e.trace n))).length < 2 ^ 64) {t : T} {x : α} {n : ℕ}
    (hcall : .inr (.called t x) ∈ e.events n) :
    ∃ m m', n < m ∧ m < m' ∧ .inr (.pushed t x) ∈ e.events m ∧ (e.state m').2.pc t = .idle := by
  have hsound : ∀ m, Sound (e.trace m) (e.state m) := fun m => sound_reach (e.reach m) (hfew m)
  have hpolls : ∀ m, 0 ≤ m → (e.state m).2.pc p = .idle ∨ (e.state m).2.pc p = .consuming := by
    refine e.stable (P := fun _ c => c.2.pc p = .idle ∨ c.2.pc p = .consuming)
      (.inl (e.start.2.1 p)) fun m _ hp hs => polling_step hp hs (hpoller m)
  have hI : ∀ k m, k ≤ m → OnTheWay p (e.trace m) (e.state m) := fun _ m _ =>
    ⟨hsound m, hpolls m (Nat.zero_le m)⟩
  -- it draws its ticket,
  obtain ⟨hx₁, hidle⟩ : (e.state (n + 1)).2.pc t = .locking x ∧
      (e.state (n + 1)).1.pc t = .idle := by
    rcases e.next n with hs | ⟨-, hnone⟩
    · exact called_step (hsound n) hcall hs
    · rw [hnone] at hcall
      cases hcall
  obtain ⟨m₁, hm₁, hx₂, ticket, hspin⟩ :=
    (drawRanking p t x).reached e hfair (hI (n + 1)) ⟨rfl, rfl, hx₁, hidle⟩
  -- gets the lock,
  have hsound₂ := hsound (m₁ + 1)
  obtain ⟨k, u, hwaits⟩ := hsound₂.lock.ahead hspin
  obtain ⟨j, i, hnear⟩ := hsound₂.near hwaits
  obtain ⟨m₂, hm₂, hlocked⟩ :=
    (waitRanking p t x ticket).reached e hfair (hI (m₁ + 1)) ⟨hnear, hx₂⟩
  -- pushes its range,
  have hin : ((e.state (m₂ + 1)).2.pc t).inside = true := by
    rw [hlocked]
    rfl
  have hheld : (e.state (m₂ + 1)).1.pc t = .holding := by
    have hplace := (hsound (m₂ + 1)).places t
    rw [hlocked] at hplace
    generalize (e.state (m₂ + 1)).1.pc t = k at hplace
    cases hplace
    rfl
  obtain ⟨k', i', hsection⟩ := section_exists (.inl hin)
  obtain ⟨m₃, hm₃, hmem, hpushed⟩ := (pushRanking p t x).reached e hfair (hI (m₂ + 1))
    ⟨hsection, by rw [hlocked]; rfl, hheld⟩
  -- and returns
  obtain ⟨m₄, hm₄, hback⟩ :=
    (returnRanking p t).reached e hfair (hI (m₃ + 1)) ⟨rfl, rfl, hpushed⟩
  exact ⟨m₃, m₄ + 1, by omega, by omega, hmem, hback⟩

/-- Nobody is in a call and the queue is empty: nobody has to move. -/
theorem not_goes_of_idle {k : SpinLock.State T size} {s : State T α} (hidle : ∀ t, s.pc t = .idle)
    (hqueue : s.queue = []) (i : Option T) : ¬ Enabled (Goes i) (k, s) := by
  rintro ⟨es, c', hgoes⟩
  cases i with
  | some t => exact hgoes.2.1 (hidle t)
  | none =>
    obtain ⟨hs, t, -, ht⟩ := hgoes
    have quiet : ∀ {v : T} {q : Pc α}, c'.2.pc = (s.goto v q).pc → q = .consuming := by
      intro v q hpc
      rw [hpc] at ht
      by_cases htv : t = v
      · rw [htv, pc_goto_self] at ht
        exact ht
      · rw [pc_goto_of_ne htv, hidle] at ht
        cases ht
    cases hs with
    | lock => cases (hidle t).symm.trans ht
    | enter _ _ _ henter =>
      obtain ⟨y, hy, -, -⟩ := henter
      cases (hidle _).symm.trans hy
    | @own v k s s' es hown _ =>
      cases hown with
      | call => cases quiet rfl
      | consume _ _ hne => exact hne hqueue
      | empty => cases (hidle t).symm.trans ht
      | push hc | full hc | store hc | race hc | finish hc | add hc | consumeEnd hc =>
        cases (hidle _).symm.trans hc

/-- Thread 1 calls while thread 0 has the lock. -/
theorem enqueue_returns_two :
    ∃ (e : Execution ((client (Fin 3) ℕ).behind (SpinLock.lock (Fin 3) 2))) (n m m' : ℕ),
      .inr (.called 1 7) ∈ e.events n ∧ n < m ∧ m < m' ∧ .inr (.pushed 1 7) ∈ e.events m ∧
      (e.state m').2.pc 1 = .idle := by
  have h₀ : Reach ((client (Fin 3) ℕ).behind (SpinLock.lock (Fin 3) 2)) []
      (.initial, ⟨fun _ => .idle, [], 0⟩) := Reach.init ⟨rfl, fun _ => rfl, rfl, rfl⟩
  have h₁ := h₀.step (.own (t := 0) (Own.call (x := 5) rfl) (.inl rfl))
  have h₂ := SpinLock.over_draw h₁ (t := 0) rfl ⟨5, rfl⟩
  have h₃ := SpinLock.over_enter h₂ (t := 0) rfl rfl ⟨5, rfl, rfl, rfl⟩
  have h₄ := h₃.step (.own (t := 1) (Own.call (x := 7) rfl) (.inl rfl))
  have h₅ := SpinLock.over_draw h₄ (t := 1) rfl ⟨7, rfl⟩
  have h₆ := h₅.step (.own (t := 0) (Own.push rfl) (.inr ⟨rfl, rfl⟩))
  have h₇ := h₆.step (.own (t := 0) (Own.store rfl (by decide)) (.inr ⟨rfl, rfl⟩))
  obtain ⟨k₁, h₈, hpc₁, -, -, hbuffer⟩ := SpinLock.over_unlock h₇ (t := 0) rfl Bool.false_ne_true
  -- thread 1 gets the lock
  have hspin : k₁.pc 1 = .spinning 1 := by
    rw [hpc₁]
    rfl
  have h₉ := SpinLock.over_enter h₈ hspin (by rw [hbuffer]; rfl) ⟨7, rfl, rfl, rfl⟩
  have hheld : (k₁.goto 1 .holding).pc 1 = .holding := SpinLock.pc_goto_self
  have hin := congrArg SpinLock.Pc.phase hheld
  have h₁₀ := h₉.step (.own (t := 1) (Own.push rfl) (.inr ⟨hin, rfl⟩))
  have h₁₁ := h₁₀.step (.own (t := 1) (Own.store rfl (by decide)) (.inr ⟨hin, rfl⟩))
  obtain ⟨k₂, h₁₂, hpc₂, -⟩ := SpinLock.over_unlock h₁₁ hheld Bool.false_ne_true
  have hout : ∀ u, (k₂.pc u).phase = .outside := by
    intro u
    rw [hpc₂]
    match u with
    | 0 =>
      rw [SpinLock.pc_goto_of_ne (by decide), SpinLock.pc_goto_of_ne (by decide), hpc₁]
      rfl
    | 1 =>
      rw [SpinLock.pc_goto_self]
      rfl
    | 2 =>
      rw [SpinLock.pc_goto_of_ne (by decide), SpinLock.pc_goto_of_ne (by decide), hpc₁]
      rfl
  have h₁₃ := h₁₂.step (.own (t := 0) (Own.finish rfl) (.inl (hout 0)))
  have h₁₄ := h₁₃.step (.own (t := 1) (Own.finish rfl) (.inl (hout 1)))
  -- and the poller takes both ranges
  have h₁₅ := h₁₄.step (.own (t := 2) (Own.consume rfl (by decide) (by decide)) (.inl (hout 2)))
  have h₁₆ := h₁₅.step (.own (t := 2) (Own.add rfl rfl) (.inl (hout 2)))
  have h₁₇ := h₁₆.step (.own (t := 2) (Own.add rfl rfl) (.inl (hout 2)))
  have h₁₈ := h₁₇.step (.own (t := 2) (Own.consumeEnd rfl (by decide)) (.inl (hout 2)))
  obtain ⟨e, N, hend, htrace, -⟩ := ReachUnder.execution h₁₈
  obtain ⟨n, -, hcall⟩ : ∃ n < N, .inr (.called 1 7) ∈ e.events n :=
    e.mem_trace.mp (by rw [htrace]; simp)
  have hfew : ∀ m, (SpinLock.drawn (lockTrace (e.trace m))).length < 2 ^ 64 := fun m => by
    have hle := (((hend.trace_prefix m).sublist.filterMap Sum.getLeft?).filterMap
      SpinLock.Event.draws).length_le
    rw [htrace] at hle
    exact Nat.lt_of_le_of_lt hle (by decide)
  have hpoller : ∀ n x, .inr (.called 2 x) ∉ e.events n := fun n x hx => by
    have hmem := (hend.trace_prefix (n + 1)).subset (e.mem_trace.mpr ⟨n, Nat.lt_succ_self n, hx⟩)
    rw [htrace] at hmem
    simp at hmem
  obtain ⟨m, m', hm, hm', hpushed, hback⟩ := enqueue_returns e
    (fun i => hend.weaklyFair (not_goes_of_idle (by decide) rfl i)) hpoller hfew hcall
  exact ⟨e, n, m, m', hcall, hm, hm', hpushed, hback⟩

end Over

end Progress

end WaitingRangeQueue

end Tagaspi
