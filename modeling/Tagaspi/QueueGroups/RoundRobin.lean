import Tagaspi.QueueGroups.Table

/-!
# The lock-free round robin of the default policy

Under `GASPI_QUEUE_GROUP_POLICY_DEFAULT` a call of `getQueue` loads the counter of
the group and then tries to exchange it for the next value. If the exchange fails,
the call returns all the same: some other call has moved the counter.

- `Step`, `machine`: the counter of one group of at least two queues, under any number
  of calls.
- `Returns`: what is known of a call that returns: when it loaded the counter, what it
  found, and that the counter has moved since.
- `round_robin`: the counter goes round, and calls that do not overlap go round the
  queues.
- `Groups.view_step`, `Groups.view_reach`: the counter of every group in the table
  (`QueueGroups.Table`) behaves like this.
-/

namespace Tagaspi

open Lts

namespace RoundRobin

/-- The counter, and the offset that each thread in a call has loaded. -/
structure State where
  counter : Nat
  call : Nat → Option Nat

inductive Event where
  /-- `counter.load()` returns `offset`. -/
  | load (t offset : Nat)
  /-- The exchange stores `nextOffset`, and the call returns. -/
  | swap (t offset nextOffset : Nat)
  /-- The exchange fails, and the call returns. -/
  | lost (t offset : Nat)
deriving DecidableEq, Repr

/-- The thread of an event. -/
def Event.thread : Event → Nat
  | .load t _ | .swap t _ _ | .lost t _ => t

/-- The value that a call on `offset` tries to store. -/
def nextOffset (num offset : Nat) : Nat := if offset < num - 1 then offset + 1 else 0

/-- One atomic access to the counter of a group of `num` queues. -/
inductive Step (num : Nat) : State → List Event → State → Prop where
  | load {s : State} {t : Nat} :
      s.call t = none →
      Step num s [.load t s.counter] { s with call := Function.update s.call t (some s.counter) }
  | swap {s : State} {t offset : Nat} :
      s.call t = some offset → s.counter = offset →
      Step num s [.swap t offset (nextOffset num offset)]
        ⟨nextOffset num offset, Function.update s.call t none⟩
  | lost {s : State} {t offset : Nat} :
      s.call t = some offset → s.counter ≠ offset →
      Step num s [.lost t offset] { s with call := Function.update s.call t none }

/-- After `setupPolicy`: the counter is 0. -/
def State.initial : State := ⟨0, fun _ => none⟩

def machine (num : Nat) : System State Event where
  init := (· = .initial)
  step := Step num

/-! ## The history of the counter -/

/-- The value that an event gives the counter. -/
def Event.value : Event → Option Nat
  | .swap _ _ n => some n
  | .load _ _ | .lost _ _ => none

/-- The values that the counter has had, in order. -/
def values (tr : List Event) : List Nat := 0 :: tr.filterMap Event.value

/-- How often it has changed. -/
def changes (tr : List Event) : Nat := (tr.filterMap Event.value).length

/-- The offset with which an event returns, and for which thread. -/
def Event.returned : Event → Option (Nat × Nat)
  | .swap t offset _ | .lost t offset => some (t, offset)
  | .load _ _ => none

/-- What is known of a call of `t` that has loaded `offset` in the trace `tr` and has not
returned. -/
def Loaded (num t offset : Nat) (tr : List Event) : Prop :=
  ∃ before since, tr = before ++ .load t offset :: since ∧ (∀ e ∈ since, e.thread ≠ t) ∧
    offset = changes before % num

/-- A call that returns at `e` after `tr`: it loaded `offset` when the counter had this value,
and since then, the exchange of the call included, the counter has changed. -/
def Returns (t offset : Nat) (tr : List Event) (e : Event) : Prop :=
  ∃ before since, tr = before ++ .load t offset :: since ∧ (∀ e' ∈ since, e'.thread ≠ t) ∧
    (values before).getLast? = some offset ∧ 1 ≤ changes (since ++ [e])

section History

variable {num : Nat} {s s' : State} {tr es : List Event}

theorem changes_append (tr es : List Event) : changes (tr ++ es) = changes tr + changes es := by
  unfold changes
  rw [List.filterMap_append, List.length_append]

/-- Below `num` the next offset is the successor modulo `num`. -/
theorem nextOffset_mod (hnum : 1 ≤ num) (k : Nat) :
    nextOffset num (k % num) = (k + 1) % num := by
  have hlt := Nat.mod_lt k hnum
  have hmod : (k + 1) % num = (k % num + 1) % num := (Nat.mod_add_mod k num 1).symm
  unfold nextOffset
  rw [hmod]
  by_cases hk : k % num < num - 1
  · rw [if_pos hk]
    exact (Nat.mod_eq_of_lt (by omega)).symm
  · rw [if_neg hk, show k % num + 1 = num by omega, Nat.mod_self]

/-- **The invariant.** The counter counts its changes modulo `num`. -/
structure Inv (num : Nat) (tr : List Event) (s : State) : Prop where
  counter : s.counter = changes tr % num
  values : values tr = (List.range (changes tr + 1)).map (· % num)
  calls : ∀ t offset, s.call t = some offset → Loaded num t offset tr

theorem inv_initial : Inv num [] .initial where
  counter := (Nat.zero_mod num).symm
  values := by
    show [0] = [0 % num]
    rw [Nat.zero_mod]
  calls t offset hc := by cases hc

theorem Loaded.append {t offset : Nat} (h : Loaded num t offset tr) {e : Event}
    (he : e.thread ≠ t) : Loaded num t offset (tr ++ [e]) := by
  obtain ⟨before, since, rfl, hsince, hoffset⟩ := h
  refine ⟨before, since ++ [e], by rw [List.append_assoc, List.cons_append], fun e' hmem => ?_,
    hoffset⟩
  rcases List.mem_append.mp hmem with hmem | hmem
  · exact hsince e' hmem
  · rw [List.mem_singleton.mp hmem]
    exact he

/-- The calls of the other threads go on. -/
theorem calls_update {t : Nat} {c : Option Nat} {e : Event} (he : e.thread = t)
    (h : ∀ u offset, s.call u = some offset → Loaded num u offset tr)
    (hc : ∀ offset, c = some offset → Loaded num t offset (tr ++ [e])) :
    ∀ u offset, Function.update s.call t c u = some offset → Loaded num u offset (tr ++ [e]) := by
  intro u offset hu
  by_cases hut : u = t
  · subst hut
    rw [Function.update_self] at hu
    exact hc offset hu
  · rw [Function.update_of_ne hut] at hu
    exact (h u offset hu).append (by rw [he]; exact Ne.symm hut)

theorem values_append_none (tr : List Event) {e : Event} (he : e.value = none) :
    values (tr ++ [e]) = values tr ∧ changes (tr ++ [e]) = changes tr := by
  unfold values changes
  rw [List.filterMap_append]
  have : [e].filterMap Event.value = [] := by simp [he]
  rw [this, List.append_nil]
  exact ⟨rfl, rfl⟩

/-- Every step keeps the invariant. -/
theorem inv_step (hnum : 2 ≤ num) (h : Inv num tr s) (hs : Step num s es s') :
    Inv num (tr ++ es) s' := by
  cases hs with
  | @load t hc =>
    obtain ⟨hvalues, hchanges⟩ := values_append_none tr (e := .load t s.counter) rfl
    refine ⟨by rw [hchanges]; exact h.counter, by rw [hvalues, hchanges]; exact h.values,
      calls_update rfl h.calls fun offset ho => ?_⟩
    cases ho
    exact ⟨tr, [], rfl, fun e he => (by cases he), h.counter⟩
  | @swap t offset hc hcounter =>
    have hnext : nextOffset num offset = (changes tr + 1) % num := by
      rw [← hcounter, h.counter, nextOffset_mod (by omega)]
    have hchanges : changes (tr ++ [.swap t offset (nextOffset num offset)]) = changes tr + 1 :=
      changes_append _ _
    refine ⟨by rw [hchanges]; exact hnext, ?_, calls_update rfl h.calls fun offset ho => ?_⟩
    · have hvalues : values (tr ++ [.swap t offset (nextOffset num offset)]) =
          values tr ++ [nextOffset num offset] := by
        unfold values
        rw [List.filterMap_append]
        rfl
      rw [hvalues, hchanges, h.values, hnext, List.range_succ (n := changes tr + 1),
        List.map_append]
      rfl
    · cases ho
  | @lost t offset hc hcounter =>
    obtain ⟨hvalues, hchanges⟩ := values_append_none tr (e := .lost t offset) rfl
    refine ⟨by rw [hchanges]; exact h.counter, by rw [hvalues, hchanges]; exact h.values,
      calls_update rfl h.calls fun offset ho => ?_⟩
    cases ho

theorem inv_reach (hnum : 2 ≤ num) (hr : Reach (machine num) tr s) : Inv num tr s :=
  hr.invariant (fun s hs => by rw [show s = .initial from hs]; exact inv_initial)
    fun _ _ _ _ _ hinv hs => inv_step hnum hinv hs

/-- The last of the values that the counter has had. -/
theorem values_getLast (hinv : values tr = (List.range (changes tr + 1)).map (· % num)) :
    (values tr).getLast? = some (changes tr % num) := by
  rw [hinv, List.range_succ, List.map_append, List.map_singleton, List.getLast?_concat]

/-! ## Calls that return -/

/-- A prefix of the history of the counter is one. -/
theorem values_since_eq {before : List Event} (since : List Event)
    (h : values (before ++ since) = (List.range (changes (before ++ since) + 1)).map (· % num)) :
    values before = (List.range (changes before + 1)).map (· % num) := by
  have hsplit : values (before ++ since) = values before ++ since.filterMap Event.value := by
    unfold values
    rw [List.filterMap_append, List.cons_append]
  have hlen : (values before).length = changes before + 1 := rfl
  have htake := congrArg (List.take (changes before + 1)) h
  rw [hsplit, ← hlen, List.take_left, hlen] at htake
  rw [htake, changes_append, ← List.map_take, List.take_range]
  congr 2
  omega

/-- A call under way has loaded the last value that the counter had then. -/
theorem call_value (h : Inv num tr s) {t offset : Nat} (hc : s.call t = some offset) :
    ∃ before since, tr = before ++ .load t offset :: since ∧ (∀ e ∈ since, e.thread ≠ t) ∧
      offset = changes before % num ∧ (values before).getLast? = some offset := by
  obtain ⟨before, since, rfl, hsince, hoffset⟩ := h.calls t offset hc
  refine ⟨before, since, rfl, hsince, hoffset, ?_⟩
  rw [values_getLast (values_since_eq _ h.values), hoffset]

/-- What every event of a run says. -/
def Good (num : Nat) (before : List Event) (e : Event) : Prop :=
  (∀ t offset, e = .load t offset → offset = changes before % num) ∧
  ∀ t offset, e.returned = some (t, offset) → Returns t offset before e

theorem good_step (h : Inv num tr s) (hs : Step num s es s') :
    ∃ e, es = [e] ∧ Good num tr e := by
  cases hs with
  | @load t hc =>
    refine ⟨_, rfl, fun t' offset he => ?_, fun t' offset he => by cases he⟩
    cases he
    exact h.counter
  | @swap t offset hc hcounter =>
    refine ⟨_, rfl, fun t' offset' he => (by cases he), fun t' offset' he => ?_⟩
    cases he
    obtain ⟨before, since, rfl, hsince, -, hlast⟩ := call_value h hc
    refine ⟨before, since, rfl, hsince, hlast, ?_⟩
    rw [changes_append]
    exact Nat.le_add_left _ _
  | @lost t offset hc hcounter =>
    refine ⟨_, rfl, fun t' offset' he => (by cases he), fun t' offset' he => ?_⟩
    cases he
    obtain ⟨before, since, rfl, hsince, hoffset, hlast⟩ := call_value h hc
    refine ⟨before, since, rfl, hsince, hlast, ?_⟩
    -- without a change the counter would still be the offset
    by_contra hzero
    have hsplit : changes (before ++ .load t offset :: since) =
        changes before + changes since := by
      rw [changes_append]
      rfl
    rw [changes_append] at hzero
    have hsame : changes since = 0 := by omega
    refine hcounter ?_
    rw [h.counter, hsplit, hsame, Nat.add_zero, ← hoffset]

theorem good_reach (hnum : 2 ≤ num) (hr : Reach (machine num) tr s) : Causal (Good num) tr := by
  refine Reach.invariant (I := fun tr _ => Causal (Good num) tr) (fun _ _ => Causal.nil) ?_ hr
  intro tr es s s' hr hc hs
  obtain ⟨e, rfl, hgood⟩ := good_step (inv_reach hnum hr) hs
  exact hc.snoc hgood

/-! ## Calls that do not overlap -/

/-- A call that no step of another one interrupts: the load and the return, and the offset. -/
def CallOf (offset : Nat) (es : List Event) : Prop :=
  ∃ t e, es = [.load t offset, e] ∧ e.returned = some (t, offset)

/-- Such a call finds the counter at `changes before % num` and moves it. -/
theorem callOf_offset {before after es : List Event} {offset : Nat}
    (hgood : Causal (Good num) (before ++ es ++ after)) (hcall : CallOf offset es) :
    offset = changes before % num ∧ changes (before ++ es) = changes before + 1 := by
  obtain ⟨t, e, rfl, he⟩ := hcall
  have hload := (hgood before (.load t offset) (e :: after) (by simp)).1 t offset rfl
  have hret := (hgood (before ++ [.load t offset]) e after (by simp)).2 t offset he
  refine ⟨hload, ?_⟩
  obtain ⟨before', since, hsplit, hsince, -, hone⟩ := hret
  -- nothing happens between the load and the return
  have hnil : since = [] := by
    rcases List.eq_nil_or_concat since with rfl | ⟨l, a, rfl⟩
    · rfl
    · have hlast := congrArg List.getLast? hsplit
      rw [List.getLast?_concat, List.concat_eq_append, ← List.cons_append, ← List.append_assoc,
        List.getLast?_concat, Option.some.injEq] at hlast
      refine absurd rfl (hsince (.load t offset) ?_)
      rw [hlast, List.concat_eq_append]
      exact List.mem_append_right _ (List.mem_singleton.mpr rfl)
  subst hnil
  have hle : changes [e] ≤ 1 := List.length_filterMap_le _ _
  have hcount : changes [.load t offset, e] = changes [e] := rfl
  rw [changes_append, hcount]
  have hone' : 1 ≤ changes [e] := hone
  omega

/-- Calls one after the other find the offsets one after the other. -/
theorem calls_offsets {blocks : List (List Event)} :
    ∀ {before after : List Event} {offsets : List Nat},
      Causal (Good num) (before ++ blocks.flatten ++ after) → List.Forall₂ CallOf offsets blocks →
      offsets = (List.range' (changes before) blocks.length).map (· % num) := by
  induction blocks with
  | nil =>
    intro before after offsets _ hcalls
    cases hcalls
    rfl
  | cons es blocks ih =>
    intro before after offsets hgood hcalls
    cases hcalls with
    | @cons offset _ offsets _ hcall hrest =>
      have hassoc : before ++ (es :: blocks).flatten ++ after =
          (before ++ es) ++ blocks.flatten ++ after := by
        simp [List.append_assoc]
      have hassoc' : before ++ (es :: blocks).flatten ++ after =
          before ++ es ++ (blocks.flatten ++ after) := by
        simp [List.append_assoc]
      obtain ⟨hoffset, hchanges⟩ := callOf_offset (hassoc' ▸ hgood) hcall
      have htail := ih (hassoc ▸ hgood) hrest
      rw [htail, hchanges, hoffset, List.length_cons, List.range'_succ, List.map_cons]

/-- A full turn, from wherever it starts, is a permutation. -/
theorem turn_perm (hnum : 0 < num) (start : Nat) :
    ((List.range' start num).map (· % num)).Perm (List.range num) := by
  have hnodup : ((List.range' start num).map (· % num)).Nodup := by
    refine List.Nodup.map_on (fun x hx y hy hxy => ?_) List.nodup_range'
    rw [List.mem_range'_1] at hx hy
    -- two numbers of the turn differ by less than `num`
    rcases Nat.le_total x y with hle | hle
    · have hzero := Nat.sub_mod_eq_zero_of_mod_eq hxy.symm
      rw [Nat.mod_eq_of_lt (by omega)] at hzero
      omega
    · have hzero := Nat.sub_mod_eq_zero_of_mod_eq hxy
      rw [Nat.mod_eq_of_lt (by omega)] at hzero
      omega
  refine (List.subperm_of_subset hnodup fun x hx => ?_).perm_of_length_le ?_
  · obtain ⟨y, -, rfl⟩ := List.mem_map.mp hx
    exact List.mem_range.mpr (Nat.mod_lt y hnum)
  · rw [List.length_range, List.length_map, List.length_range']

end History

/-- The queue that `getQueue` returns for `offset`. -/
def queueOf (queueBits first offset : Nat) : Nat := (first + offset) % 2 ^ queueBits

/-- **Round robin.** The counter stays below `num` and takes the values 0, 1, …, `num - 1`,
0, 1, … in turn. A call returns the queue at a value that the counter had when the call
loaded it, and the counter has moved since then. Any `num` calls one after the other return
each of the `num` queues once. -/
theorem round_robin (queueBits first num : Nat) (hnum : 2 ≤ num)
    (hfits : first + num ≤ 2 ^ queueBits) {tr : List Event} {s : State}
    (hr : Reach (machine num) tr s) :
    s.counter < num ∧
    values tr = (List.range (changes tr + 1)).map (· % num) ∧
    (values tr).getLast? = some s.counter ∧
    (∀ before e after t offset, tr = before ++ e :: after → e.returned = some (t, offset) →
      Returns t offset before e ∧ queueOf queueBits first offset = first + offset) ∧
    ∀ before blocks after offsets, tr = before ++ blocks.flatten ++ after →
      blocks.length = num → List.Forall₂ CallOf offsets blocks →
      (offsets.map (queueOf queueBits first)).Perm (List.range' first num) := by
  have hinv := inv_reach hnum hr
  have hgood := good_reach hnum hr
  have hqueue : ∀ offset, offset < num → queueOf queueBits first offset = first + offset :=
    fun offset hlt => Nat.mod_eq_of_lt (by omega)
  refine ⟨?_, hinv.values, ?_, ?_, ?_⟩
  · rw [hinv.counter]
    exact Nat.mod_lt _ (by omega)
  · rw [values_getLast hinv.values, hinv.counter]
  · intro before e after t offset htr he
    have hret := (hgood before e after htr).2 t offset he
    refine ⟨hret, hqueue offset ?_⟩
    obtain ⟨before', since, rfl, -, hlast, -⟩ := hret
    have hvalues := values_since_eq (.load t offset :: since ++ e :: after)
      (by rw [← List.append_assoc, ← htr]; exact hinv.values)
    rw [values_getLast hvalues, Option.some.injEq] at hlast
    rw [← hlast]
    exact Nat.mod_lt _ (by omega)
  · intro before blocks after offsets htr hlen hcalls
    have hoffsets := calls_offsets (htr ▸ hgood) hcalls
    have hperm : offsets.Perm (List.range num) := by
      rw [hoffsets, hlen]
      exact turn_perm (by omega) _
    have hmap : (List.range num).map (queueOf queueBits first) = List.range' first num := by
      rw [List.range'_eq_map_range]
      exact List.map_congr_left fun offset hmem => hqueue offset (List.mem_range.mp hmem)
    rw [← hmap]
    exact hperm.map _

/-- Two calls load the same value; the exchange of one of them fails. -/
theorem round_robin_race :
    ∃ tr s, Reach (machine 2) tr s ∧ s.counter = 1 ∧
      (values tr).getLast? = some s.counter ∧
      Returns 1 0 [.load 0 0, .load 1 0, .swap 0 0 1] (.lost 1 0) := by
  have h₀ : Reach (machine 2) [] .initial := Reach.init rfl
  have h₁ := h₀.step (Step.load (t := 0) rfl)
  have h₂ := h₁.step (Step.load (t := 1) rfl)
  have h₃ := h₂.step (Step.swap (t := 0) rfl rfl)
  have h₄ := h₃.step (Step.lost (t := 1) rfl (Nat.one_ne_zero))
  obtain ⟨-, -, hlast, hret, -⟩ := round_robin 8 3 2 (by decide) (by decide) h₄
  exact ⟨_, _, h₄, rfl, hlast, (hret _ (.lost 1 0) [] 1 0 rfl rfl).1⟩

end RoundRobin

/-! ## The groups in the table -/

namespace Groups

/-- The value of a group's counter. -/
def counterOf : GroupData → Nat
  | .counter value => value
  | .queues _ => 0

/-- The offset that a call on object `p` has loaded. -/
def Call.loadedOn (p : Nat) : Call → Option Nat
  | .loaded _ p' offset => if p' = p then some offset else none
  | .idle | .creating .. | .deleting _ | .deleted _ | .found .. => none

/-- Group object `p` as the calls of `getQueue` see it. -/
def view (s : State) (p : Nat) (g : QueueGroup) : RoundRobin.State :=
  ⟨counterOf g.data, fun t => (s.call t).loadedOn p⟩

section View

variable {cfg : Limits} {topo : Topology} {h : HardwareInfo} {s s' : State} {tr es : List Event}
  {p t : Nat} {g g' : QueueGroup}

/-- Thread `t` goes on at `c`. -/
theorem view_goto {c : Call} (hcall : s'.call = Function.update s.call t c) (p : Nat)
    (g g' : QueueGroup) :
    view s' p g' = ⟨counterOf g'.data, Function.update (view s p g).call t (c.loadedOn p)⟩ := by
  unfold view
  congr 1
  funext u
  rw [hcall]
  by_cases hu : u = t
  · subst hu
    rw [Function.update_self, Function.update_self]
  · rw [Function.update_of_ne hu, Function.update_of_ne hu]

theorem view_access {c : Call} {num : Nat} {e : RoundRobin.Event}
    (hcall : s'.call = Function.update s.call t c)
    (hs : RoundRobin.Step num (view s p g) [e]
      ⟨counterOf g'.data, Function.update (view s p g).call t (c.loadedOn p)⟩) :
    RoundRobin.Step num (view s p g) [e] (view s' p g') := by
  rw [view_goto hcall p g g']
  exact hs

/-- Objects are numbered in the order of their creation. -/
theorem objects_lt (hr : Reach (machine cfg topo h) tr s) {p : Nat} {g : QueueGroup} :
    s.objects p = some g → p < s.next := by
  have hall : ∀ p g, s.objects p = some g → p < s.next := by
    refine Reach.invariant (I := fun _ s => ∀ p g, s.objects p = some g → p < s.next) ?_ ?_ hr
    · rintro s rfl p g hg
      cases hg
    · intro tr es s s' _ ih hs p g hg
      cases hs with
      | createLock | createFull | createExists | createInvalid | deleteLock | deleteMissing
      | deleteDone | getMissing | getFound | getOnly | getLoad | getLost | getCPU =>
        exact ih p g hg
      | createDone =>
        rcases update_eq_some hg with ⟨rfl, -⟩ | ⟨-, hg'⟩
        · exact Nat.lt_succ_self _
        · exact Nat.lt_succ_of_lt (ih p g hg')
      | deleteObject =>
        rcases update_eq_some hg with ⟨-, hv⟩ | ⟨-, hg'⟩
        · cases hv
        · exact ih p g hg'
      | getSwap _ hg₁ _ =>
        rcases update_eq_some hg with ⟨rfl, -⟩ | ⟨-, hg'⟩
        · exact ih _ _ hg₁
        · exact ih p g hg'
  exact hall p g

/-- What a step of the table does to a group object that it leaves alive. -/
def Accessed (cfg : Limits) (es : List Event) (p : Nat) (s s' : State) (g g' : QueueGroup) :
    Prop :=
  (g'.firstQueue = g.firstQueue ∧ g'.numQueues = g.numQueues ∧ g'.policy = g.policy) ∧
  (view s' p g' = view s p g ∨
    ∃ e, RoundRobin.Step g.numQueues (view s p g) [e] (view s' p g') ∧
      ∀ u offset, e.returned = some (u, offset) →
        ∃ id, es = [.got u id (RoundRobin.queueOf cfg.queueBits g.firstQueue offset)])

/-- The object is the same and the counter has not been touched. -/
theorem Accessed.quiet {c : Call} (hcall : s'.call = Function.update s.call t c)
    (hc : c.loadedOn p = (s.call t).loadedOn p) : Accessed cfg es p s s' g g := by
  refine ⟨⟨rfl, rfl, rfl⟩, .inl ?_⟩
  rw [view_goto hcall p g g, hc]
  exact congrArg (RoundRobin.State.mk _) (Function.update_eq_self t _)

theorem loadedOn_self {id p offset : Nat} :
    (Call.loaded id p offset).loadedOn p = some offset := if_pos rfl

theorem loadedOn_ne {id p p' offset : Nat} (hne : p' ≠ p) :
    (Call.loaded id p' offset).loadedOn p = none := if_neg hne

/-- **The counters of the groups go round**: for every group object that it leaves alive, a
step of the table is an access of `getQueue` to its counter or nothing. -/
theorem view_step (hlt : s.objects p = some g → p < s.next) (hs : Step cfg topo h s es s')
    (hg : s.objects p = some g) (hg' : s'.objects p = some g') :
    Accessed cfg es p s s' g g' := by
  have hsame : s'.objects p = s.objects p → g' = g := fun ho =>
    Option.some.inj (hg'.symm.trans (ho.trans hg))
  cases hs with
  | createLock hc | createFull hc | createExists hc | createInvalid hc | deleteLock hc
  | deleteMissing hc | deleteDone hc | getFound hc | getOnly hc | getCPU hc =>
    obtain rfl := hsame rfl
    exact .quiet rfl (by rw [hc]; rfl)
  | createDone hc =>
    have hne : p ≠ s.next := Nat.ne_of_lt (hlt hg)
    obtain rfl := hsame (Function.update_of_ne hne ..)
    exact .quiet rfl (by rw [hc]; rfl)
  | @deleteObject t id p' hc hp =>
    have hlive : Function.update s.objects p' none p = some g' := hg'
    rcases update_eq_some hlive with ⟨-, hv⟩ | ⟨hne, -⟩
    · cases hv
    · obtain rfl := hsame (Function.update_of_ne hne ..)
      exact .quiet rfl (by rw [hc]; rfl)
  | getMissing =>
    obtain rfl := hsame rfl
    exact ⟨⟨rfl, rfl, rfl⟩, .inl rfl⟩
  | @getLoad t id p' offset g₁ hc hg₁ hd hnum hdata =>
    obtain rfl := hsame rfl
    by_cases hpp : p' = p
    · subst hpp
      obtain rfl : g' = g₁ := Option.some.inj (hg.symm.trans hg₁)
      have hidle : (view s p' g').call t = none := congrArg (Call.loadedOn p') hc
      have hoffset : (view s p' g').counter = offset := congrArg counterOf hdata
      refine ⟨⟨rfl, rfl, rfl⟩, .inr ⟨.load t (view s p' g').counter, ?_, fun u o hret => ?_⟩⟩
      · refine view_access rfl ?_
        rw [loadedOn_self, ← hoffset]
        exact .load hidle
      · cases hret
    · exact .quiet rfl (by rw [hc, loadedOn_ne hpp]; rfl)
  | @getSwap t id p' offset g₁ hc hg₁ hd =>
    by_cases hpp : p' = p
    · subst hpp
      obtain rfl : g = g₁ := Option.some.inj (hg.symm.trans hg₁)
      have hupdate : Function.update s.objects p'
          (some { g with data := .counter (g.nextOffset offset) }) p' = some g' := hg'
      rw [Function.update_self, Option.some.injEq] at hupdate
      subst hupdate
      have hloaded : (view s p' g).call t = some offset := by
        show (s.call t).loadedOn p' = some offset
        rw [hc, loadedOn_self]
      have hcounter : (view s p' g).counter = offset := congrArg counterOf hd
      refine ⟨⟨rfl, rfl, rfl⟩, .inr ⟨.swap t offset (g.nextOffset offset), ?_,
        fun u o hret => ?_⟩⟩
      · exact view_access rfl (.swap hloaded hcounter)
      · cases hret
        exact ⟨id, rfl⟩
    · have hne : p ≠ p' := Ne.symm hpp
      obtain rfl := hsame (Function.update_of_ne hne ..)
      exact .quiet rfl (by rw [hc, loadedOn_ne hpp]; rfl)
  | @getLost t id p' offset value g₁ hc hg₁ hd hne =>
    obtain rfl := hsame rfl
    by_cases hpp : p' = p
    · subst hpp
      obtain rfl : g' = g₁ := Option.some.inj (hg.symm.trans hg₁)
      have hloaded : (view s p' g').call t = some offset := by
        show (s.call t).loadedOn p' = some offset
        rw [hc, loadedOn_self]
      have hcounter : (view s p' g').counter ≠ offset := by
        show counterOf g'.data ≠ offset
        rw [hd]
        exact hne
      refine ⟨⟨rfl, rfl, rfl⟩, .inr ⟨.lost t offset, ?_, fun u o hret => ?_⟩⟩
      · exact view_access rfl (.lost hloaded hcounter)
      · cases hret
        exact ⟨id, rfl⟩
    · exact .quiet rfl (by rw [hc, loadedOn_ne hpp]; rfl)

/-- A new object of the default policy: its counter is 0 and no call uses it. -/
theorem view_created (hinv : Inv cfg h tr s) (hs : Step cfg topo h s es s')
    (hnone : s.objects p = none) (hg' : s'.objects p = some g') (hd : g'.policy = .default) :
    view s' p g' = .initial := by
  have hold : s.objects p ≠ some g' := by
    rw [hnone]
    simp
  cases hs with
  | createLock | createFull | createExists | createInvalid | deleteLock | deleteMissing
  | deleteDone | getMissing | getFound | getOnly | getLoad | getLost | getCPU =>
    exact absurd hg' hold
  | deleteObject =>
    rcases update_eq_some hg' with ⟨-, hv⟩ | ⟨-, hlive⟩
    · cases hv
    · exact absurd hlive hold
  | getSwap _ hg₁ _ =>
    rcases update_eq_some hg' with ⟨rfl, -⟩ | ⟨-, hlive⟩
    · rw [hnone] at hg₁
      cases hg₁
    · exact absurd hlive hold
  | @createDone t id first num fuel policy garbage data hc _ _ _ hsetup =>
    rcases update_eq_some hg' with ⟨rfl, hv⟩ | ⟨-, hlive⟩
    · cases hv
      have hdata : data = .counter 0 := by
        unfold setupPolicy at hsetup
        rw [if_pos (show policy = .default from hd)] at hsetup
        cases hsetup
        rfl
      have hcalls : (view s s.next ⟨first, num, policy, data⟩).call = fun _ => none := by
        funext u
        show (s.call u).loadedOn s.next = none
        have hu := hinv.calls u
        cases hcu : s.call u with
        | idle | creating | deleting | deleted | found => rfl
        | loaded id' p' offset =>
          rw [hcu] at hu
          exact loadedOn_ne (Nat.ne_of_lt hu.1)
      rw [view_goto rfl s.next ⟨first, num, policy, data⟩ ⟨first, num, policy, data⟩, hcalls, hdata]
      exact congrArg (RoundRobin.State.mk 0) (Function.update_eq_self t _)
    · exact absurd hlive hold

/-- **Every group of the default policy is a round robin**: in every run of the table, the
counter of a live group object and the calls on it are in a state that the round robin reaches. -/
theorem view_reach (hr : Reach (machine cfg topo h) tr s) :
    ∀ p g, s.objects p = some g → g.policy = .default →
      ∃ tr', Reach (RoundRobin.machine g.numQueues) tr' (view s p g) := by
  refine Reach.invariant (I := fun _ s => ∀ p g, s.objects p = some g → g.policy = .default →
    ∃ tr', Reach (RoundRobin.machine g.numQueues) tr' (view s p g)) ?_ ?_ hr
  · rintro s rfl p g hg
    cases hg
  · intro tr es s s' hr ih hs p g' hg' hd
    rcases hold : s.objects p with _ | g
    · exact ⟨[], .init (view_created (inv_reach hr) hs hold hg' hd)⟩
    · obtain ⟨⟨-, hnum, hpolicy⟩, hview⟩ := view_step (objects_lt hr) hs hold hg'
      obtain ⟨tr', hr'⟩ := ih p g hold (hpolicy ▸ hd)
      rw [hnum]
      rcases hview with hview | ⟨e, he, -⟩
      · exact ⟨tr', by rw [hview]; exact hr'⟩
      · exact ⟨tr' ++ [e], hr'.step he⟩

end View

end Groups

end Tagaspi
