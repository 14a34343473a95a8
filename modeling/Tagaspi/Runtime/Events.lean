import Tagaspi.Runtime.Model

/-!
# The event counter of a task

Every RMA call, every wait, both pollers and the roll-back after a failed submission
touch the same counter of a task. `event_accounting` says what it is at every moment:
the requests of the task that are posted and not yet processed, its waiting ranges,
and what its running call has taken and not yet passed on.

- `requestEvents`: the share of the RMA side, and `requestEvents_step`: how a step
  changes it. The share of the waits is in `Notifications.Events`.
- `netEffect`: what one RMA call does to the counter; nothing, if it fails
  (`calls_reach`).
-/

namespace Tagaspi

open Lts Containers

/-- The tags that a poller has still to process. -/
def QueuePoll.tags {T : Type} : QueuePoll T → List (Option T)
  | .batch _ _ _ tags => tags
  | .idle | .head _ _ | .wait _ _ => []

/-- The events that an RMA call has taken and not yet passed on to a request or given
back. -/
def RmaCall.events : RmaCall → Nat
  | .submit _ a => a.numRequests
  | .posting _ left _ => left
  | .rollback _ n => n
  | .idle | .increase _ _ => 0

/-- The identity of a running call. -/
def RmaCall.id : RmaCall → Option Nat
  | .increase id _ | .submit id _ | .posting id _ _ | .rollback id _ => some id
  | .idle => none

/-- What an event of RMA call `id` does to the counter of its task. -/
def RtEvent.effectOf {T : Type} (id : Nat) : RtEvent T → Int
  | .increase id' _ n => if id' = id then n else 0
  | .rollback id' _ n => if id' = id then -n else 0
  | _ => 0

/-- What RMA call `id` itself has done to it. -/
def netEffect {T : Type} (id : Nat) (tr : List (RtEvent T)) : Int :=
  (tr.map (RtEvent.effectOf id)).sum

theorem netEffect_append {T : Type} (id : Nat) (tr es : List (RtEvent T)) :
    netEffect id (tr ++ es) = netEffect id tr + netEffect id es := by
  unfold netEffect
  rw [List.map_append, List.sum_append]

namespace Runtime

variable {T : Type} [DecidableEq T] {cfg : Config} {r r' : Runtime T} {es tr : List (RtEvent T)}

/-! ## The share of the RMA side -/

/-- The tags of task `t` in the batches of the pollers. -/
def polledOf (cfg : Config) (r : Runtime T) (t : T) : Nat :=
  ∑ ins ∈ Finset.range cfg.instances, (r.pollers ins).tags.count (some t)

/-- The requests of task `t` that were posted and that no poller has processed yet. -/
def outstanding (cfg : Config) (r : Runtime T) (t : T) : Nat :=
  (r.requests.map (·.tag)).count (some t) + r.polledOf cfg t

/-- The events of the RMA side. -/
def requestEvents (cfg : Config) (r : Runtime T) (t : T) : Nat :=
  r.outstanding cfg t + (r.rma t).events

theorem polledOf_setPoll (r : Runtime T) {ins : Nat} (hins : ins < cfg.instances)
    (p : QueuePoll T) (t : T) :
    (r.setPoll ins p).polledOf cfg t + (r.pollers ins).tags.count (some t) =
      r.polledOf cfg t + p.tags.count (some t) :=
  sum_update (Finset.range cfg.instances) r.pollers (fun p => p.tags.count (some t))
    (Finset.mem_range.mpr hins) p

/-- A poller that neither takes nor drops a tag. -/
theorem polledOf_same {ins : Nat} (hins : ins < cfg.instances) {p : QueuePoll T}
    (hp : p.tags = (r.pollers ins).tags) (t : T) :
    (r.setPoll ins p).polledOf cfg t = r.polledOf cfg t := by
  have := polledOf_setPoll r hins p t
  rw [hp] at this
  exact Nat.add_right_cancel this

theorem setRma_events (r : Runtime T) {t : T} {c : RmaCall} (u : T) :
    ((r.setRma t c).rma u).events + (if t = u then (r.rma t).events else 0) =
      (r.rma u).events + if t = u then c.events else 0 := by
  show (Function.update r.rma t c u).events + _ = _
  by_cases hu : t = u
  · subst hu
    rw [if_pos rfl, if_pos rfl, Function.update_self, Nat.add_comm]
  · rw [if_neg hu, if_neg hu, Function.update_of_ne (Ne.symm hu)]

theorem addEvents_events (r : Runtime T) {t : T} {n : Int} (u : T) :
    (r.addEvents t n).events u = r.events u + if t = u then n else 0 := by
  show Function.update r.events t (r.events t + n) u = _
  by_cases hu : t = u
  · subst hu
    rw [if_pos rfl, Function.update_self]
  · rw [if_neg hu, Function.update_of_ne (Ne.symm hu), Int.add_zero]

/-- The requests of `t` among those posted. -/
theorem count_post (q : Request T) (l : List (Request T)) (t : T) :
    ((l ++ [q]).map (·.tag)).count (some t) =
      (l.map (·.tag)).count (some t) + if q.tag = some t then 1 else 0 := by
  rw [List.map_append, List.count_append, List.map_singleton, List.count_singleton]
  by_cases hq : q.tag = some t
  · rw [if_pos hq, if_pos (beq_iff_eq.mpr hq)]
  · rw [if_neg hq, if_neg (fun hb => hq (beq_iff_eq.mp hb))]

/-- An RMA call that takes `n` events, or gives them back if `n` is negative. -/
theorem requestEvents_call {t : T} {c : RmaCall} {n : Int}
    (hn : ((r.rma t).events : Int) + n = c.events) (u : T) :
    (((r.addEvents t n).setRma t c).requestEvents cfg u : Int) =
      r.requestEvents cfg u + if t = u then n else 0 := by
  have hrma := setRma_events (r.addEvents t n) (t := t) (c := c) u
  have hold : (r.addEvents t n).rma = r.rma := rfl
  have hout : ((r.addEvents t n).setRma t c).outstanding cfg u = r.outstanding cfg u := rfl
  rw [hold] at hrma
  unfold requestEvents
  rw [hout]
  by_cases hu : t = u
  · subst hu
    rw [if_pos rfl, if_pos rfl] at hrma
    rw [if_pos rfl]
    omega
  · rw [if_neg hu, if_neg hu] at hrma
    rw [if_neg hu]
    omega

/-- A step of a poller that leaves its tags alone. -/
theorem requestEvents_poll {ins : Nat} (hins : ins < cfg.instances) {p : QueuePoll T}
    (hp : p.tags = (r.pollers ins).tags) (u : T) :
    (r.setPoll ins p).requestEvents cfg u = r.requestEvents cfg u := by
  unfold requestEvents outstanding
  rw [polledOf_same hins hp]
  rfl

/-- An RMA call that goes on with the events it has. -/
theorem requestEvents_setRma {t : T} {c : RmaCall} (hc : (r.rma t).events = c.events) (u : T) :
    (r.setRma t c).requestEvents cfg u = r.requestEvents cfg u := by
  have hrma := setRma_events r (t := t) (c := c) u
  rw [hc] at hrma
  show r.outstanding cfg u + ((r.setRma t c).rma u).events = _
  rw [Nat.add_right_cancel hrma]
  rfl

/-- A request that is posted is one that the call has no longer to post. -/
theorem requestEvents_post {t : T} {id left queue : Nat}
    (hc : r.rma t = .posting id (left + 1) queue) (u : T) :
    requestEvents cfg { r.setRma t (.posting id left queue) with
      requests := r.requests ++ [⟨queue, some t, false⟩] } u = r.requestEvents cfg u := by
  have hrma := setRma_events r (t := t) (c := .posting id left queue) u
  have hcount := count_post ⟨queue, some t, false⟩ r.requests u
  rw [hc] at hrma
  show ((r.requests ++ [(⟨queue, some t, false⟩ : Request T)]).map (·.tag)).count (some u) +
    r.polledOf cfg u + ((r.setRma t (.posting id left queue)).rma u).events = _
  unfold requestEvents outstanding
  rw [hcount]
  by_cases hu : t = u
  · subst hu
    simp only [if_true, RmaCall.events] at hrma ⊢
    omega
  · simp only [hu, if_false, Option.some.injEq] at hrma ⊢
    omega

/-- A request without a task counts for none. -/
theorem requestEvents_external {queue : Nat} (u : T) :
    requestEvents cfg { r with requests := r.requests ++ [⟨queue, none, false⟩] } u =
      r.requestEvents cfg u := by
  unfold requestEvents outstanding
  rw [count_post, if_neg (fun hc => by cases hc), Nat.add_zero]
  rfl

/-- `gaspi_request_wait` hands requests over to the poller. -/
theorem requestEvents_wait {ins queue last : Nat} {batch rest : List (Request T)}
    (hins : ins < cfg.instances) (hp : r.pollers ins = .wait queue last)
    (hperm : r.requests.Perm (batch ++ rest)) (u : T) :
    requestEvents cfg
      { r.setPoll ins (.batch queue last batch.length (batch.map (·.tag))) with requests := rest }
      u = r.requestEvents cfg u := by
  have hpoll := polledOf_setPoll r hins (.batch queue last batch.length (batch.map (·.tag))) u
  have hcount := (hperm.map (·.tag)).count_eq (some u)
  rw [hp] at hpoll
  rw [List.map_append, List.count_append] at hcount
  show (rest.map (·.tag)).count (some u) + (r.setPoll ins _).polledOf cfg u + (r.rma u).events = _
  unfold requestEvents outstanding
  simp only [QueuePoll.tags, List.count_nil] at hpoll
  omega

/-- The poller is done with a tag. -/
theorem requestEvents_tag {ins queue last n : Nat} {tag : Option T} {tags : List (Option T)}
    (hins : ins < cfg.instances) (hp : r.pollers ins = .batch queue last n (tag :: tags)) (u : T) :
    (r.setPoll ins (.batch queue last n tags)).requestEvents cfg u +
      (if tag = some u then 1 else 0) = r.requestEvents cfg u := by
  have hpoll := polledOf_setPoll r hins (.batch queue last n tags) u
  rw [hp] at hpoll
  show (r.requests.map (·.tag)).count (some u) +
    (r.setPoll ins (.batch queue last n tags)).polledOf cfg u + (r.rma u).events + _ = _
  unfold requestEvents outstanding
  by_cases ht : tag = some u
  · subst ht
    simp only [QueuePoll.tags, List.count_cons_self] at hpoll
    rw [if_pos rfl]
    omega
  · simp only [QueuePoll.tags, List.count_cons_of_ne ht] at hpoll
    rw [if_neg ht]
    omega

/-! ## The balance -/

/-- The part of the counter of task `t` that no request, range or call accounts for. -/
def surplus (cfg : Config) (r : Runtime T) (t : T) : Int :=
  r.events t - r.requestEvents cfg t - r.waits.waitEvents t

theorem surplus_eq {u : T} {n : Int} (hwaits : r'.waits = r.waits)
    (hevents : r'.events u = r.events u + n)
    (hrequests : (r'.requestEvents cfg u : Int) = r.requestEvents cfg u + n) :
    r'.surplus cfg u = r.surplus cfg u := by
  unfold surplus
  rw [hwaits, hevents, hrequests]
  generalize (r.waits.waitEvents u : Int) = w
  omega

/-- A step that leaves the counters alone. -/
theorem surplus_quiet {u : T} (hwaits : r'.waits = r.waits) (hevents : r'.events = r.events)
    (hrequests : r'.requestEvents cfg u = r.requestEvents cfg u) :
    r'.surplus cfg u = r.surplus cfg u :=
  surplus_eq hwaits (by rw [hevents, Int.add_zero]) (by rw [hrequests, Int.add_zero])

/-- **No step changes the surplus.** -/
theorem surplus_step (hown : Owned r.waits)
    (hsub : ∀ t id a, r.rma t = .submit id a → IsSubmission cfg.requests a)
    (hs : Step cfg r es r') (u : T) : r'.surplus cfg u = r.surplus cfg u := by
  -- a poller that goes on without touching its tags
  have poll : ∀ {ins : Nat} {p : QueuePoll T}, ins < cfg.instances →
      p.tags = (r.pollers ins).tags → (r.setPoll ins p).surplus cfg u = r.surplus cfg u :=
    fun hins hp => surplus_quiet rfl rfl (requestEvents_poll hins hp u)
  -- a call that goes on with the events it has
  have call : ∀ {t : T} {c : RmaCall}, (r.rma t).events = c.events →
      (r.setRma t c).surplus cfg u = r.surplus cfg u :=
    fun hc => surplus_quiet rfl rfl (requestEvents_setRma hc u)
  cases hs with
  | @wait ws s' hs' _ =>
    have hw := waitEvents_step hown hs' u
    show r.events u + effects u ws - (r.requestEvents cfg u : Int) - (s'.waitEvents u : Int) =
      r.events u - r.requestEvents cfg u - r.waits.waitEvents u
    rw [hw]
    generalize (r.waits.waitEvents u : Int) = w
    omega
  | @call t a hc _ _ =>
    have hcall : (r.rma t).events = (RmaCall.increase r.nextCall a).events := by
      rw [hc]
      rfl
    exact call hcall
  | @increase t id a hc =>
    refine surplus_eq rfl (addEvents_events r u) (requestEvents_call ?_ u)
    rw [hc]
    exact Int.zero_add _
  | @submit t id a hc =>
    refine call ?_
    rw [hc, RmaCall.events, RmaCall.events, (hsub t id a hc).posted]
  | @post t id left queue hc => exact surplus_quiet rfl rfl (requestEvents_post hc u)
  | @success t id queue hc => exact call (by rw [hc]; rfl)
  | @reject t id a hc => exact call (by rw [hc]; rfl)
  | @rollback t id n hc =>
    refine surplus_eq rfl (addEvents_events r u) (requestEvents_call ?_ u)
    rw [hc]
    exact Int.add_right_neg _
  | external => exact surplus_quiet rfl rfl (requestEvents_external u)
  | @complete before after q hq =>
    refine surplus_quiet rfl rfl ?_
    unfold requestEvents outstanding
    rw [hq, List.map_append, List.map_cons, List.map_append, List.map_cons]
    rfl
  | pollStart hins hp => exact poll hins (by rw [hp]; rfl)
  | pollEnter hins hp _ => exact poll hins (by rw [hp]; rfl)
  | pollEnd hins hp _ => exact poll hins (by rw [hp]; rfl)
  | @pollWait ins queue last batch rest hins hp hperm _ _ =>
    exact surplus_quiet rfl rfl (requestEvents_wait hins hp hperm u)
  | pollInvalid hins hp => exact poll hins (by rw [hp]; rfl)
  | @pollNull ins queue last n tags hins hp =>
    have htag := requestEvents_tag hins hp u
    rw [if_neg (Option.some_ne_none u).symm, Nat.add_zero] at htag
    exact surplus_quiet rfl rfl htag
  | @pollDecrease ins queue last n t tags hins hp =>
    refine surplus_eq rfl (addEvents_events r u) ?_
    have htag := requestEvents_tag hins hp u
    show ((r.setPoll ins (.batch queue last n tags)).requestEvents cfg u : Int) = _
    by_cases hu : t = u
    · subst hu
      rw [if_pos rfl] at htag ⊢
      omega
    · rw [if_neg (fun hc => hu (Option.some.inj hc))] at htag
      rw [if_neg hu]
      omega
  | pollAgain hins hp _ => exact poll hins (by rw [hp]; rfl)
  | pollNext hins hp _ => exact poll hins (by rw [hp]; rfl)

/-- **The invariant**: nothing in a counter is unaccounted for. -/
structure Balanced (cfg : Config) (r : Runtime T) : Prop where
  owned : Owned r.waits
  submissions : ∀ t id a, r.rma t = .increase id a ∨ r.rma t = .submit id a →
    IsSubmission cfg.requests a
  surplus : ∀ t, r.surplus cfg t = 0

theorem balanced_init (h : Initial r) : Balanced cfg r where
  owned := owned_init h.waits
  submissions t id a hc := by
    rw [h.rma t] at hc
    rcases hc with hc | hc <;> cases hc
  surplus t := by
    have hpolled : r.polledOf cfg t = 0 := Finset.sum_eq_zero fun ins _ => by
      rw [h.pollers ins]
      rfl
    unfold surplus requestEvents outstanding
    rw [hpolled, h.requests, h.rma t, h.events t, waitEvents_init h.waits t]
    rfl

/-- Where the submission of a call comes from. -/
theorem submissions_setRma {t : T} {c : RmaCall}
    (h : ∀ t id a, r.rma t = .increase id a ∨ r.rma t = .submit id a → IsSubmission cfg.requests a)
    (hc : ∀ id a, c = .increase id a ∨ c = .submit id a → IsSubmission cfg.requests a) :
    ∀ u id a, (r.setRma t c).rma u = .increase id a ∨ (r.setRma t c).rma u = .submit id a →
      IsSubmission cfg.requests a := by
  intro u id a hu
  have hupd : (r.setRma t c).rma u = Function.update r.rma t c u := rfl
  rw [hupd] at hu
  by_cases hut : u = t
  · subst hut
    rw [Function.update_self] at hu
    exact hc id a hu
  · rw [Function.update_of_ne hut] at hu
    exact h u id a hu

theorem balanced_step (h : Balanced cfg r) (hs : Step cfg r es r') : Balanced cfg r' := by
  have hsub : ∀ t id a, r.rma t = .submit id a → IsSubmission cfg.requests a :=
    fun t id a hc => h.submissions t id a (.inr hc)
  have hsurplus : ∀ t, r'.surplus cfg t = 0 := fun t =>
    (surplus_step h.owned hsub hs t).trans (h.surplus t)
  cases hs with
  | wait hs' _ => exact ⟨owned_step h.owned hs', h.submissions, hsurplus⟩
  | @call t a _ _ ha =>
    refine ⟨h.owned, submissions_setRma h.submissions (fun id b hb => ?_), hsurplus⟩
    rcases hb with hb | hb <;> cases hb
    exact ha
  | @increase t id a hc =>
    refine ⟨h.owned, submissions_setRma (r := r.addEvents t _) h.submissions (fun id' b hb => ?_),
      hsurplus⟩
    rcases hb with hb | hb <;> cases hb
    exact h.submissions t id a (.inl hc)
  | submit | success | reject | post =>
    refine ⟨h.owned, submissions_setRma h.submissions (fun id b hb => ?_), hsurplus⟩
    rcases hb with hb | hb <;> cases hb
  | @rollback t id n hc =>
    refine ⟨h.owned, submissions_setRma (r := r.addEvents t _) h.submissions (fun id b hb => ?_),
      hsurplus⟩
    rcases hb with hb | hb <;> cases hb
  | external | complete | pollStart | pollEnter | pollEnd | pollWait | pollInvalid | pollNull
  | pollDecrease | pollAgain | pollNext => exact ⟨h.owned, h.submissions, hsurplus⟩

theorem balanced_reach (hr : Reach (machine T cfg) tr r) : Balanced cfg r :=
  hr.invariant (I := fun _ r => Balanced cfg r) (fun _ hi => balanced_init hi)
    fun _ _ _ _ _ hb hs => balanced_step hb hs

/-! ## Calls that fail -/

/-- What a running call has done so far. -/
def CallEffect (tr : List (RtEvent T)) : RmaCall → Prop
  | .increase id _ => netEffect id tr = 0
  | .submit id a => netEffect id tr = a.numRequests
  | .rollback id n => netEffect id tr = n
  | .idle | .posting _ _ _ => True

/-- Every call has an identity of its own, and those that failed have done nothing. -/
structure CallsOk (tr : List (RtEvent T)) (r : Runtime T) : Prop where
  fresh : ∀ id, r.nextCall ≤ id → netEffect id tr = 0 ∧ ∀ t, RtEvent.failure id t ∉ tr
  active : ∀ t id, (r.rma t).id = some id → id < r.nextCall ∧
    (∀ u, RtEvent.failure id u ∉ tr) ∧ ∀ u, (r.rma u).id = some id → u = t
  effect : ∀ t, CallEffect tr (r.rma t)
  failed : ∀ id t, RtEvent.failure id t ∈ tr → netEffect id tr = 0

omit [DecidableEq T] in
theorem CallEffect.congr {tr' : List (RtEvent T)} {c : RmaCall} (h : CallEffect tr c)
    (hsame : ∀ id, c.id = some id → netEffect id tr' = netEffect id tr) : CallEffect tr' c := by
  cases c with
  | idle => trivial
  | posting => trivial
  | increase id a => exact (hsame id rfl).trans h
  | submit id a => exact (hsame id rfl).trans h
  | rollback id n => exact (hsame id rfl).trans h

omit [DecidableEq T] in
/-- A step outside the RMA calls. -/
theorem CallsOk.same (h : CallsOk tr r) (hrma : r'.rma = r.rma) (hnext : r'.nextCall = r.nextCall)
    (hes : ∀ id, netEffect id es = 0) (hfail : ∀ id t, RtEvent.failure id t ∉ es) :
    CallsOk (tr ++ es) r' := by
  have hnet : ∀ id, netEffect id (tr ++ es) = netEffect id tr := fun id => by
    rw [netEffect_append, hes, Int.add_zero]
  have hmem : ∀ id t, RtEvent.failure id t ∈ tr ++ es → RtEvent.failure id t ∈ tr :=
    fun id t hm => (List.mem_append.mp hm).resolve_right (hfail id t)
  refine ⟨fun id hid => ?_, fun t id hid => ?_, fun t => ?_, fun id t hm => ?_⟩
  · rw [hnext] at hid
    rw [hnet]
    exact ⟨(h.fresh id hid).1, fun t hm => (h.fresh id hid).2 t (hmem id t hm)⟩
  · rw [hrma] at hid
    rw [hnext, hrma]
    obtain ⟨hlt, hno, huniq⟩ := h.active t id hid
    exact ⟨hlt, fun u hm => hno u (hmem id u hm), huniq⟩
  · rw [hrma]
    exact (h.effect t).congr fun id _ => hnet id
  · rw [hnet]
    exact h.failed id t (hmem id t hm)

/-- A step of the running call `id` of task `t`. -/
theorem CallsOk.advance (h : CallsOk tr r) {t : T} {c : RmaCall} {id : Nat}
    (hid : (r.rma t).id = some id) (hc : c.id = some id ∨ c.id = none)
    (hrma : r'.rma = Function.update r.rma t c) (hnext : r'.nextCall = r.nextCall)
    (hes : ∀ id', id' ≠ id → netEffect id' es = 0) (hcall : CallEffect (tr ++ es) c)
    (hfail : ∀ id' u, RtEvent.failure id' u ∈ es →
      id' = id ∧ c.id = none ∧ netEffect id (tr ++ es) = 0) : CallsOk (tr ++ es) r' := by
  obtain ⟨hlt, hno, huniq⟩ := h.active t id hid
  have hnet : ∀ id', id' ≠ id → netEffect id' (tr ++ es) = netEffect id' tr := fun id' hne => by
    rw [netEffect_append, hes id' hne, Int.add_zero]
  have hmem : ∀ id' u, id' ≠ id → RtEvent.failure id' u ∈ tr ++ es → RtEvent.failure id' u ∈ tr :=
    fun id' u hne hm => (List.mem_append.mp hm).resolve_right fun he => hne (hfail id' u he).1
  -- the calls of the other tasks are other calls
  have hother : ∀ u, u ≠ t → (r'.rma u = r.rma u) ∧ (r.rma u).id ≠ some id := fun u hu => by
    refine ⟨by rw [hrma, Function.update_of_ne hu], fun hu' => hu (huniq u hu')⟩
  have hself : r'.rma t = c := by rw [hrma, Function.update_self]
  refine ⟨fun id' hid' => ?_, fun u id' hu => ?_, fun u => ?_, fun id' u hm => ?_⟩
  · have hne : id' ≠ id := by omega
    rw [hnext] at hid'
    rw [hnet id' hne]
    exact ⟨(h.fresh id' hid').1, fun u hm => (h.fresh id' hid').2 u (hmem id' u hne hm)⟩
  · by_cases hut : u = t
    · subst hut
      rw [hself] at hu
      have hsome : c.id = some id := hc.resolve_right (by rw [hu]; exact Option.some_ne_none _)
      have heq : id' = id := Option.some.inj (hu.symm.trans hsome)
      subst heq
      refine ⟨by rw [hnext]; exact hlt, fun v hm => ?_, fun v hv => ?_⟩
      · rcases List.mem_append.mp hm with hm | hm
        · exact hno v hm
        · rw [(hfail id' v hm).2.1] at hsome
          cases hsome
      · by_contra hvu
        rw [(hother v hvu).1] at hv
        exact (hother v hvu).2 hv
    · rw [(hother u hut).1] at hu
      have hne : id' ≠ id := by
        rintro rfl
        exact (hother u hut).2 hu
      obtain ⟨hlt', hno', huniq'⟩ := h.active u id' hu
      refine ⟨by rw [hnext]; exact hlt', fun v hm => hno' v (hmem id' v hne hm), fun v hv => ?_⟩
      by_cases hvt : v = t
      · subst hvt
        rw [hself] at hv
        rcases hc with hc | hc
        · exact absurd (Option.some.inj (hv.symm.trans hc)) hne
        · rw [hc] at hv
          cases hv
      · rw [(hother v hvt).1] at hv
        exact huniq' v hv
  · by_cases hut : u = t
    · subst hut
      rw [hself]
      exact hcall
    · rw [(hother u hut).1]
      refine (h.effect u).congr fun id' hid' => hnet id' ?_
      rintro rfl
      exact (hother u hut).2 hid'
  · by_cases hne : id' = id
    · subst hne
      rcases List.mem_append.mp hm with hm | hm
      · exact absurd hm (hno u)
      · exact (hfail id' u hm).2.2
    · rw [hnet id' hne]
      exact h.failed id' u (hmem id' u hne hm)

/-- A new call. -/
theorem CallsOk.call (h : CallsOk tr r) {t : T} {a : Submission} (hidle : r.rma t = .idle) :
    CallsOk (tr ++ [.call r.nextCall t])
      { r.setRma t (.increase r.nextCall a) with nextCall := r.nextCall + 1 } := by
  have hnet : ∀ id, netEffect id (tr ++ [RtEvent.call r.nextCall t]) = netEffect id tr := by
    intro id
    rw [netEffect_append]
    exact Int.add_zero _
  have hmem : ∀ id u, RtEvent.failure id u ∈ tr ++ [RtEvent.call r.nextCall t] →
      RtEvent.failure id u ∈ tr := fun id u hm =>
    (List.mem_append.mp hm).resolve_right (by simp)
  have hother : ∀ u, u ≠ t → Function.update r.rma t (.increase r.nextCall a) u = r.rma u :=
    fun u hu => Function.update_of_ne hu ..
  have hself : Function.update r.rma t (.increase r.nextCall a) t = .increase r.nextCall a :=
    Function.update_self ..
  -- an old call is older than the new one
  have hold : ∀ u id, (r.rma u).id = some id → id ≠ r.nextCall := fun u id hu =>
    Nat.ne_of_lt (h.active u id hu).1
  refine ⟨fun id hid => ?_, fun u id hu => ?_, fun u => ?_, fun id u hm => ?_⟩
  · have hid' : r.nextCall ≤ id := Nat.le_of_succ_le hid
    rw [hnet]
    exact ⟨(h.fresh id hid').1, fun u hm => (h.fresh id hid').2 u (hmem id u hm)⟩
  · change (Function.update r.rma t (.increase r.nextCall a) u).id = some id at hu
    show id < r.nextCall + 1 ∧ _ ∧ ∀ v, (Function.update r.rma t _ v).id = some id → v = u
    by_cases hut : u = t
    · subst hut
      rw [hself] at hu
      cases hu
      refine ⟨Nat.lt_succ_self _, fun v hm => (h.fresh _ (Nat.le_refl _)).2 v (hmem _ v hm),
        fun v hv => ?_⟩
      by_contra hvu
      rw [hother v hvu] at hv
      exact hold v _ hv rfl
    · rw [hother u hut] at hu
      obtain ⟨hlt, hno, huniq⟩ := h.active u id hu
      refine ⟨Nat.lt_succ_of_lt hlt, fun v hm => hno v (hmem id v hm), fun v hv => ?_⟩
      by_cases hvt : v = t
      · subst hvt
        rw [hself] at hv
        exact absurd (Option.some.inj hv).symm (hold u id hu)
      · rw [hother v hvt] at hv
        exact huniq v hv
  · show CallEffect _ (Function.update r.rma t (.increase r.nextCall a) u)
    by_cases hut : u = t
    · subst hut
      rw [hself]
      exact (hnet _).trans (h.fresh _ (Nat.le_refl _)).1
    · rw [hother u hut]
      exact (h.effect u).congr fun id _ => hnet id
  · rw [hnet]
    exact h.failed id u (hmem id u hm)

omit [DecidableEq T] in
theorem callsOk_init (h : Initial r) : CallsOk [] r where
  fresh _ _ := ⟨rfl, fun _ => List.not_mem_nil⟩
  active t id hid := by
    rw [h.rma t] at hid
    cases hid
  effect t := by
    rw [h.rma t]
    trivial
  failed _ _ hm := by cases hm

omit [DecidableEq T] in
/-- The events of the waits are no events of an RMA call. -/
theorem netEffect_waits (id : Nat) (es : List (Event T)) :
    netEffect id (es.map RtEvent.wait) = 0 := by
  refine List.sum_eq_zero fun n hn => ?_
  rw [List.map_map, List.mem_map] at hn
  obtain ⟨e, -, rfl⟩ := hn
  rfl

theorem callsOk_step (h : CallsOk tr r) (hs : Step cfg r es r') : CallsOk (tr ++ es) r' := by
  have hnil : ∀ id id' : Nat, id' ≠ id → netEffect id' ([] : List (RtEvent T)) = 0 :=
    fun _ _ _ => rfl
  have hnofail : ∀ id u, RtEvent.failure id u ∉ ([] : List (RtEvent T)) :=
    fun _ _ => List.not_mem_nil
  have hquiet : ∀ {r' : Runtime T}, r'.rma = r.rma → r'.nextCall = r.nextCall →
      CallsOk (tr ++ []) r' := fun hrma hnext => h.same hrma hnext (fun _ => rfl) hnofail
  cases hs with
  | wait hs' _ =>
    refine h.same rfl rfl (fun id => netEffect_waits id _) fun id u hm => ?_
    obtain ⟨e, -, he⟩ := List.mem_map.mp hm
    cases he
  | call hc _ _ => exact h.call hc
  | @increase t id a hc =>
    have heff := h.effect t
    rw [hc] at heff
    refine h.advance (by rw [hc]; rfl) (.inl rfl) rfl rfl (fun id' hne => ?_) ?_ fun id' u hm => ?_
    · simp [netEffect, RtEvent.effectOf, Ne.symm hne]
    · show netEffect id _ = _
      rw [netEffect_append, show netEffect id tr = 0 from heff]
      simp [netEffect, RtEvent.effectOf]
    · simp at hm
  | @submit t id a hc =>
    exact h.advance (by rw [hc]; rfl) (.inl rfl) rfl rfl (hnil id) trivial
      fun id' u hm => absurd hm (hnofail id' u)
  | @post t id left queue hc =>
    exact h.advance (by rw [hc]; rfl) (.inl rfl) rfl rfl (hnil id) trivial
      fun id' u hm => absurd hm (hnofail id' u)
  | @success t id queue hc =>
    refine h.advance (by rw [hc]; rfl) (.inr rfl) rfl rfl (fun _ _ => rfl) trivial
      fun id' u hm => ?_
    simp at hm
  | @reject t id a hc =>
    have heff := h.effect t
    rw [hc] at heff
    refine h.advance (by rw [hc]; rfl) (.inl rfl) rfl rfl (hnil id) ?_
      fun id' u hm => absurd hm (hnofail id' u)
    rw [List.append_nil]
    exact heff
  | @rollback t id n hc =>
    have heff := h.effect t
    rw [hc] at heff
    refine h.advance (by rw [hc]; rfl) (.inr rfl) rfl rfl (fun id' hne => ?_) trivial
      fun id' u hm => ?_
    · simp [netEffect, RtEvent.effectOf, Ne.symm hne]
    · have hid : id' = id := by
        simp at hm
        exact hm.1
      refine ⟨hid, rfl, ?_⟩
      rw [netEffect_append, show netEffect id tr = n from heff]
      simp [netEffect, RtEvent.effectOf]
  | pollDecrease => exact h.same rfl rfl (fun _ => rfl) fun id u hm => by simp at hm
  | external | complete | pollStart | pollEnter | pollEnd | pollWait | pollInvalid | pollNull
  | pollAgain | pollNext => exact hquiet rfl rfl

theorem callsOk_reach (hr : Reach (machine T cfg) tr r) : CallsOk tr r :=
  hr.invariant (fun _ hi => callsOk_init hi) fun _ _ _ _ _ hc hs => callsOk_step hc hs

/-! ## The account -/

/-- What the running call of task `t` has taken and neither submitted, enqueued nor given
back. -/
def inCall (r : Runtime T) (t : T) : Nat := (r.rma t).events + (r.waits.calls t).inCall

/-- **Event accounting.** In every reachable state the event counter of a task is the number
of its requests that were posted and not yet processed, plus the number of its waiting
ranges, plus what its running call has taken. Hence no counter is ever negative, a call that
returns an error has left the counter as it was, and outside calls the counter is zero just
when nothing is outstanding. -/
theorem event_accounting (hr : Reach (machine T cfg) tr r) :
    (∀ t, r.events t = (r.outstanding cfg t + r.waits.waiting t + r.inCall t : Nat)) ∧
    (∀ t, 0 ≤ r.events t) ∧
    (∀ id t, RtEvent.failure id t ∈ tr → netEffect id tr = 0) ∧
    (∀ t, r.rma t = .idle → r.waits.calls t = .idle →
      (r.events t = 0 ↔ r.outstanding cfg t = 0 ∧ r.waits.waiting t = 0)) := by
  have hb := balanced_reach hr
  have hcount : ∀ t, r.events t = (r.outstanding cfg t + r.waits.waiting t + r.inCall t : Nat) := by
    intro t
    have hsurplus := hb.surplus t
    unfold surplus requestEvents at hsurplus
    rw [waitEvents_eq hb.owned t] at hsurplus
    unfold inCall
    generalize r.waits.waiting t = w at hsurplus ⊢
    omega
  refine ⟨hcount, fun t => ?_, (callsOk_reach hr).failed, fun t hrma hcall => ?_⟩
  · rw [hcount t]
    exact Int.natCast_nonneg _
  · have hin : r.inCall t = 0 := by
      unfold inCall
      rw [hrma, hcall]
      rfl
    rw [hcount t, hin]
    generalize r.waits.waiting t = w
    omega

/-- One task, one queue with one poller, and one request for each element. -/
def oneQueue : Config where
  limits := oneSegment
  requests := ⟨fun _ n => n, fun _ n => n, fun _ _ => rfl⟩
  instances := 1
  infos _ := ⟨0, 1⟩

/-- A runtime that has just been started, over the waits `s`. -/
def fresh (s : State Unit) : Runtime Unit where
  waits := s
  rma _ := .idle
  events _ := 0
  requests := []
  pollers _ := .idle
  nextCall := 0

theorem initial_started {s : State Unit} (h : Tagaspi.Initial s) : Initial (fresh s) :=
  ⟨h, fun _ => rfl, fun _ => rfl, rfl, fun _ => rfl, rfl⟩

/-- The first of three requests of a list is posted. -/
theorem reach_posting :
    ∃ tr r, Reach (machine Unit oneQueue) tr r ∧ r.rma () = .posting 0 2 0 ∧ r.events () = 3 ∧
      r.requests = [⟨0, some (), false⟩] ∧ r.pollers 0 = .idle := by
  obtain ⟨rest, hrest⟩ := range_numEntries
  obtain ⟨s, hs⟩ : ∃ s : State Unit, Tagaspi.Initial s :=
    ⟨State.fresh (0 :: rest) 0, initial_fresh hrest.symm 0⟩
  have h₀ : Reach (machine Unit oneQueue) [] (fresh s) := .init (initial_started hs)
  have h₁ := h₀.step (Step.call (t := ()) rfl (hs.calls ()) (.writeList 3 0))
  have h₂ := h₁.step (Step.increase (t := ()) rfl)
  have h₃ := h₂.step (Step.submit (t := ()) rfl)
  have h₄ := h₃.step (Step.post (t := ()) rfl)
  exact ⟨_, _, h₄, rfl, rfl, rfl, rfl⟩

/-- A list of three elements is submitted. GASPI completes the first request and the poller
gives its event back before the call has posted the others. -/
theorem event_accounting_overtaken :
    ∃ tr r, Reach (machine Unit oneQueue) tr r ∧ r.rma () = .posting 0 2 0 ∧
      r.events () = 2 ∧ r.outstanding oneQueue () + r.waits.waiting () + r.inCall () = 2 := by
  obtain ⟨tr, r, h₀, hrma, hevents, hreq, hpoll⟩ := reach_posting
  have hins : 0 < oneQueue.instances := Nat.one_pos
  have hcompleted : r.requests = [] ++ (⟨0, some (), false⟩ : Request Unit) :: [] := hreq
  have h₁ := h₀.step (Step.complete hcompleted)
  have h₂ := h₁.step (Step.pollStart hins hpoll)
  have h₃ := h₂.step (Step.pollEnter hins rfl Nat.one_pos)
  have h₄ := h₃.step (Step.pollWait hins rfl (.of_eq (List.append_nil _).symm)
    (Nat.le_of_ble_eq_true rfl) fun q hq => by
      obtain rfl := List.mem_singleton.mp hq
      exact ⟨rfl, rfl⟩)
  have h₅ := h₄.step (Step.pollDecrease hins rfl)
  have hcount := (event_accounting h₅).1 ()
  have htwo : (r.events () + -1 : Int) = 2 := by rw [hevents]; rfl
  refine ⟨_, _, h₅, hrma, htwo, ?_⟩
  exact Int.ofNat.inj (hcount.symm.trans htwo)

end Runtime

end Tagaspi
