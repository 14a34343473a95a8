import Mathlib.Tactic.Common

/-!
# Calls to the tasking runtime (`TaskingModel.cpp`, `TaskingModel.hpp`)

The library reaches the tasking runtime through symbols that `TaskingModel::initialize`
looks up by name. Every ALPI function returns a code; a code that is not zero ends the
process with a message, for which the library asks the runtime to describe the code.

- `init`, `registerPolling`, …: the operations, given what the ALPI functions return. An
  operation that is not stopped has no other effect here; the polling instances and the
  task events are in `Polling.Lifecycle` and `Runtime.Model`.
- `Process`, `run`: a process that starts with `init` and goes on with any operations.
- `failures_reported_iff`: when every failure is reported. `_alpi_error_string` is never
  loaded, so that no description is ever given.
-/

namespace Tagaspi

namespace TaskingModel

/-! ## Symbols -/

/-- The symbols of the ALPI interface. -/
inductive Symbol where
  | errorString
  | versionCheck
  | versionGet
  | taskSelf
  | taskSpawn
  | taskWaitforNs
  | taskEventsIncrease
  | taskEventsDecrease
deriving DecidableEq, Repr

/-- `Symbol::_name`. -/
def Symbol.name : Symbol → String
  | .errorString => "alpi_error_string"
  | .versionCheck => "alpi_version_check"
  | .versionGet => "alpi_version_get"
  | .taskSelf => "alpi_task_self"
  | .taskSpawn => "alpi_task_spawn"
  | .taskWaitforNs => "alpi_task_waitfor_ns"
  | .taskEventsIncrease => "alpi_task_events_increase"
  | .taskEventsDecrease => "alpi_task_events_decrease"

/-- What ends the process. -/
inductive Stop where
  /-- `ErrorHandler::fail` has printed the text. -/
  | failed (text : String)
  /-- A call through a symbol that is null. -/
  | nullCall (symbol : Symbol)
deriving DecidableEq, Repr

/-- The tasking runtime: the symbols in it and the function behind `alpi_error_string`. -/
structure Runtime where
  present : Symbol → Bool
  errorString : Int → String

/-- `_symbol != nullptr`, for every symbol. -/
abbrev Symbols := Symbol → Bool

/-- `ErrorHandler::fail`. -/
def fail {α : Type} (reasonParts : List String) : Except Stop α :=
  .error (.failed ("Error: " ++ String.join reasonParts ++ "\n"))

section Operations

variable (rt : Runtime)

/-- `Symbol::load`. -/
def load (sym : Symbols) (symbol : Symbol) : Except Stop Symbols :=
  if sym symbol then .ok sym
  else if rt.present symbol then .ok (Function.update sym symbol true)
  else fail ["Could not find symbol ", symbol.name]

/-- `Symbol::operator()`, on a function that returns `result`. -/
def invoke {α : Type} (sym : Symbols) (symbol : Symbol) (result : α) : Except Stop α :=
  if sym symbol then .ok result else .error (.nullCall symbol)

/-- `TaskingModel::getError`. -/
def getError (sym : Symbols) (error : Int) : Except Stop String :=
  invoke sym .errorString (rt.errorString error)

/-! ## Operations -/

/-- The places at which an ALPI function is called. -/
inductive Site where
  | versionGet
  | versionCheck
  | registerPolling
  | unregisterPolling
  | getCurrentTask
  | increaseCurrentTaskEvents
  | decreaseTaskEvents
  | genericPolling
deriving DecidableEq, Repr

def Site.symbol : Site → Symbol
  | .versionGet => .versionGet
  | .versionCheck => .versionCheck
  | .registerPolling => .taskSpawn
  | .unregisterPolling => .taskWaitforNs
  | .getCurrentTask => .taskSelf
  | .increaseCurrentTaskEvents => .taskEventsIncrease
  | .decreaseTaskEvents => .taskEventsDecrease
  | .genericPolling => .taskWaitforNs

/-- The text before the description of the error. -/
def Site.text : Site → String
  | .versionGet => "Failed alpi_version_get: "
  | .versionCheck => "Failed alpi_version_check: "
  | .registerPolling => "Failed alpi_task_spawn: "
  | .unregisterPolling => "Failed alpi_task_waitfor_ns: "
  | .getCurrentTask => "Failed alpi_task_self: "
  | .increaseCurrentTaskEvents => "Failed alpi_task_events_increase: "
  | .decreaseTaskEvents => "Failed alpi_task_events_decrease: "
  | .genericPolling => "Failed task_waitfor_ns: "

/-- `if (int err = symbol(…)) fail(text, getError(err))`, where the function returns `err`. -/
def check (sym : Symbols) (site : Site) (err : Int) : Except Stop Unit := do
  let err ← invoke sym site.symbol err
  if err ≠ 0 then
    let description ← getError rt sym err
    fail [site.text, description]
  else .ok ()

/-- `ALPI_VERSION_MAJOR` and `ALPI_VERSION_MINOR`. -/
def expected : Int × Int := (1, 0)

/-- `ALPI_ERR_VERSION`. -/
def errVersion : Int := 1

/-- The message about an incompatible version. -/
def versionParts (provided : Int × Int) : List String :=
  ["Incompatible ALPI tasking interface versions:\n",
    "\tExpected: ", toString expected.1, ".", toString expected.2, "\n",
    "\tProvided: ", toString provided.1, ".", toString provided.2]

/-- The symbols that `TaskingModel::initialize` loads. -/
def loadedSymbols : List Symbol :=
  [.versionCheck, .versionGet, .taskSelf, .taskSpawn, .taskWaitforNs, .taskEventsIncrease,
    .taskEventsDecrease]

/-- `TaskingModel::initialize`. `alpi_version_get` returns `getErr` and the version `provided`,
`alpi_version_check` returns `checkErr`. -/
def init (sym : Symbols) (provided : Int × Int) (getErr checkErr : Int) :
    Except Stop Symbols := do
  let sym ← loadedSymbols.foldlM (load rt) sym
  check rt sym .versionGet getErr
  let err ← invoke sym Symbol.versionCheck checkErr
  if err = errVersion then fail (versionParts provided)
  else if err ≠ 0 then
    let description ← getError rt sym err
    fail [Site.versionCheck.text, description]
  else .ok sym

def registerPolling (sym : Symbols) (err : Int) : Except Stop Unit :=
  check rt sym .registerPolling err

/-- The loop calls `alpi_task_waitfor_ns` until it sees `_finished`; the calls return `errs`. -/
def unregisterPolling (sym : Symbols) : List Int → Except Stop Unit
  | [] => .ok ()
  | err :: errs => do
    check rt sym .unregisterPolling err
    unregisterPolling sym errs

def getCurrentTask (sym : Symbols) (err : Int) : Except Stop Unit :=
  check rt sym .getCurrentTask err

def increaseCurrentTaskEvents (sym : Symbols) (err : Int) : Except Stop Unit :=
  check rt sym .increaseCurrentTaskEvents err

def decreaseTaskEvents (sym : Symbols) (err : Int) : Except Stop Unit :=
  check rt sym .decreaseTaskEvents err

/-- One turn of the loop. -/
def genericPolling (sym : Symbols) (err : Int) : Except Stop Unit :=
  check rt sym .genericPolling err

/-! ## Processes -/

/-- The operations after `init`, with what the ALPI functions return. -/
inductive Op where
  | registerPolling (err : Int)
  | unregisterPolling (errs : List Int)
  | getCurrentTask (err : Int)
  | increaseCurrentTaskEvents (err : Int)
  | decreaseTaskEvents (err : Int)
  | genericPolling (err : Int)
deriving DecidableEq, Repr

def perform (sym : Symbols) : Op → Except Stop Unit
  | .registerPolling err => registerPolling rt sym err
  | .unregisterPolling errs => unregisterPolling rt sym errs
  | .getCurrentTask err => getCurrentTask rt sym err
  | .increaseCurrentTaskEvents err => increaseCurrentTaskEvents rt sym err
  | .decreaseTaskEvents err => decreaseTaskEvents rt sym err
  | .genericPolling err => genericPolling rt sym err

/-- One operation after the other. -/
def performAll (sym : Symbols) : List Op → Except Stop Unit
  | [] => .ok ()
  | op :: ops => do
    perform rt sym op
    performAll sym ops

/-- A process: what the runtime returns, call by call. -/
structure Process where
  provided : Int × Int
  getErr : Int
  checkErr : Int
  ops : List Op
deriving DecidableEq, Repr

/-- The process starts with all symbols null. -/
def Process.run (p : Process) : Except Stop Unit := do
  let sym ← init rt (fun _ => false) p.provided p.getErr p.checkErr
  performAll rt sym p.ops

/-- The ALPI functions that an operation calls in turn. -/
def Op.calls : Op → List (Site × Int)
  | .registerPolling err => [(.registerPolling, err)]
  | .unregisterPolling errs => errs.map fun err => (.unregisterPolling, err)
  | .getCurrentTask err => [(.getCurrentTask, err)]
  | .increaseCurrentTaskEvents err => [(.increaseCurrentTaskEvents, err)]
  | .decreaseTaskEvents err => [(.decreaseTaskEvents, err)]
  | .genericPolling err => [(.genericPolling, err)]

/-- All calls of ALPI functions, in order, and what they return. Those after the first one
that does not return zero are not made. -/
def Process.calls (p : Process) : List (Site × Int) :=
  (.versionGet, p.getErr) :: (.versionCheck, p.checkErr) :: p.ops.flatMap Op.calls

/-! ## What should be reported -/

/-- The text for a call at `site` that returns `err`. -/
def Process.message (p : Process) (site : Site) (err : Int) : String :=
  let parts := if site = .versionCheck ∧ err = errVersion then versionParts p.provided
    else [site.text, rt.errorString err]
  "Error: " ++ String.join parts ++ "\n"

/-- The call is made, since those before it returned zero. -/
def Process.Made (p : Process) (site : Site) (err : Int) : Prop :=
  ∃ before after, p.calls = before ++ (site, err) :: after ∧ ∀ c ∈ before, c.2 = 0

/-- **Every failure is reported**: no call goes through a null symbol, and a code that is not
zero ends the process with its message. -/
structure Process.Reported (p : Process) : Prop where
  no_null : ∀ symbol, p.run rt ≠ .error (.nullCall symbol)
  failed : ∀ site err, p.Made site err → err ≠ 0 →
    p.run rt = .error (.failed (p.message rt site err))

end Operations

/-! ## Which symbols are loaded -/

section Reports

variable {rt : Runtime} {sym : Symbols} {site : Site} {err : Int}

theorem load_ok (hpresent : ∀ symbol, rt.present symbol = true) (symbol : Symbol) :
    load rt sym symbol = .ok (Function.update sym symbol true) := by
  unfold load
  cases hloaded : sym symbol with
  | true => rw [if_pos rfl, ← hloaded, Function.update_eq_self]
  | false => rw [if_neg Bool.false_ne_true, if_pos (hpresent symbol)]

theorem foldlM_load (hpresent : ∀ symbol, rt.present symbol = true) (symbols : List Symbol) :
    ∀ sym, symbols.foldlM (load rt) sym =
      .ok fun symbol => sym symbol || symbols.contains symbol := by
  induction symbols with
  | nil =>
    intro sym
    simp [List.foldlM, pure, Except.pure]
  | cons symbol symbols ih =>
    intro sym
    rw [List.foldlM_cons, load_ok hpresent]
    show symbols.foldlM (load rt) _ = _
    rw [ih]
    congr 1
    funext other
    by_cases heq : other = symbol
    · subst heq
      simp
    · simp [heq]

/-- After `init` every symbol is loaded, except for `alpi_error_string`. -/
def afterInit : Symbols := fun symbol => loadedSymbols.contains symbol

theorem load_all (hpresent : ∀ symbol, rt.present symbol = true) :
    loadedSymbols.foldlM (load rt) (fun _ => false) = .ok afterInit := by
  rw [foldlM_load hpresent]
  rfl

theorem afterInit_site (site : Site) : afterInit site.symbol = true := by
  cases site <;> rfl

/-! ## One call -/

theorem invoke_loaded {α : Type} (site : Site) (result : α) :
    invoke afterInit site.symbol result = .ok result := if_pos (afterInit_site site)

/-- **No description**: asking for it goes through a null symbol. -/
theorem getError_null (err : Int) :
    getError rt afterInit err = .error (.nullCall .errorString) := rfl

theorem check_zero (site : Site) : check rt afterInit site 0 = .ok () := by
  unfold check
  rw [invoke_loaded]
  rfl

theorem check_nonzero (site : Site) (herr : err ≠ 0) :
    check rt afterInit site err = .error (.nullCall .errorString) := by
  unfold check
  rw [invoke_loaded]
  show (if err ≠ 0 then _ else _) = _
  rw [if_pos herr, getError_null]
  rfl

/-! ## Sequences of calls -/

/-- The calls one after the other, as long as they return zero. -/
def checks (rt : Runtime) : List (Site × Int) → Except Stop Unit
  | [] => .ok ()
  | (site, err) :: rest => do
    check rt afterInit site err
    checks rt rest

theorem checks_append (before after : List (Site × Int)) :
    checks rt (before ++ after) = (do checks rt before; checks rt after) := by
  induction before with
  | nil => rfl
  | cons c before ih =>
    obtain ⟨site, err⟩ := c
    rw [List.cons_append, checks, checks, ih]
    cases check rt afterInit site err <;> rfl

theorem checks_zero {calls : List (Site × Int)} (hzero : ∀ c ∈ calls, c.2 = 0) :
    checks rt calls = .ok () := by
  induction calls with
  | nil => rfl
  | cons c calls ih =>
    obtain ⟨site, err⟩ := c
    have herr : err = 0 := hzero (site, err) List.mem_cons_self
    rw [checks, herr, check_zero]
    exact ih fun c' hmem => hzero c' (List.mem_cons_of_mem _ hmem)

/-- The first call that does not return zero ends the process. -/
theorem checks_nonzero {before after : List (Site × Int)} (hzero : ∀ c ∈ before, c.2 = 0)
    (herr : err ≠ 0) :
    checks rt (before ++ (site, err) :: after) = .error (.nullCall .errorString) := by
  rw [checks_append, checks_zero hzero]
  show checks rt ((site, err) :: after) = _
  rw [checks, check_nonzero site herr]
  rfl

theorem unregisterPolling_eq (errs : List Int) : unregisterPolling rt afterInit errs =
    checks rt (errs.map fun err => (.unregisterPolling, err)) := by
  induction errs with
  | nil => rfl
  | cons err errs ih =>
    rw [unregisterPolling, ih]
    rfl

/-- An operation is nothing but its calls. -/
theorem perform_eq (op : Op) : perform rt afterInit op = checks rt op.calls := by
  have single : ∀ site err, check rt afterInit site err = checks rt [(site, err)] := by
    intro site err
    rw [checks]
    cases check rt afterInit site err <;> rfl
  cases op with
  | registerPolling | getCurrentTask | increaseCurrentTaskEvents | decreaseTaskEvents
  | genericPolling => exact single _ _
  | unregisterPolling errs => exact unregisterPolling_eq errs

theorem performAll_eq (ops : List Op) :
    performAll rt afterInit ops = checks rt (ops.flatMap Op.calls) := by
  induction ops with
  | nil => rfl
  | cons op ops ih =>
    rw [performAll, perform_eq, ih, List.flatMap_cons, checks_append]

/-! ## Processes -/

variable {p : Process}

/-- The process up to the check of the version. -/
theorem run_eq (hpresent : ∀ symbol, rt.present symbol = true) :
    p.run rt = (do
      check rt afterInit .versionGet p.getErr
      if p.checkErr = errVersion then fail (versionParts p.provided)
      else checks rt ((.versionCheck, p.checkErr) :: p.ops.flatMap Op.calls)) := by
  unfold Process.run init
  rw [load_all hpresent]
  show (check rt afterInit .versionGet p.getErr >>= fun _ => _) >>= _ = _
  cases check rt afterInit .versionGet p.getErr with
  | error stop => rfl
  | ok _ =>
    show (invoke afterInit Site.versionCheck.symbol p.checkErr >>= fun err => _) >>= _ =
      if p.checkErr = errVersion then _ else _
    rw [invoke_loaded]
    show (if p.checkErr = errVersion then fail (versionParts p.provided)
      else if p.checkErr ≠ 0 then _ else Except.ok afterInit) >>=
        (fun sym => performAll rt sym p.ops) = _
    by_cases hversion : p.checkErr = errVersion
    · rw [if_pos hversion, if_pos hversion]
      rfl
    · rw [if_neg hversion, if_neg hversion]
      by_cases hzero : p.checkErr = 0
      · rw [if_neg (not_not.mpr hzero), hzero, checks, check_zero]
        exact performAll_eq p.ops
      · rw [if_pos hzero, checks, check_nonzero _ hzero]
        rfl

/-- The version is checked in `init` only. -/
theorem versionCheck_not_mem {ops : List Op} (hmem : (site, err) ∈ ops.flatMap Op.calls) :
    site ≠ .versionCheck := by
  obtain ⟨op, -, hop⟩ := List.mem_flatMap.mp hmem
  rintro rfl
  cases op with
  | registerPolling | getCurrentTask | increaseCurrentTaskEvents | decreaseTaskEvents
  | genericPolling => cases List.mem_singleton.mp hop
  | unregisterPolling errs =>
    obtain ⟨_, -, heq⟩ := List.mem_map.mp hop
    cases heq

/-- No call fails. -/
theorem run_zero (hpresent : ∀ symbol, rt.present symbol = true)
    (hzero : ∀ c ∈ p.calls, c.2 = 0) : p.run rt = .ok () := by
  have hget : p.getErr = 0 := hzero (.versionGet, p.getErr) List.mem_cons_self
  have hcheck : p.checkErr = 0 :=
    hzero (.versionCheck, p.checkErr) (List.mem_cons_of_mem _ List.mem_cons_self)
  rw [run_eq hpresent, hget, check_zero]
  show (if p.checkErr = errVersion then _ else _) = _
  rw [if_neg (by rw [hcheck]; decide)]
  exact checks_zero fun c hmem => hzero c (List.mem_cons_of_mem _ hmem)

/-- **The first failure**: the version message is printed; every other message dies while it
asks for the description. -/
theorem run_failure (hpresent : ∀ symbol, rt.present symbol = true) (hmade : p.Made site err)
    (herr : err ≠ 0) :
    p.run rt = if site = .versionCheck ∧ err = errVersion
      then .error (.failed (p.message rt site err)) else .error (.nullCall .errorString) := by
  obtain ⟨before, after, hcalls, hzero⟩ := hmade
  rw [run_eq hpresent]
  cases before with
  | nil =>
    -- `alpi_version_get`
    obtain ⟨hfirst, -⟩ := List.cons.inj hcalls
    obtain ⟨rfl, rfl⟩ := Prod.mk.inj hfirst
    have hsite : ¬ (Site.versionGet = .versionCheck ∧ p.getErr = errVersion) := fun hs => by
      cases hs.1
    rw [check_nonzero _ herr, if_neg hsite]
    rfl
  | cons c before =>
    obtain ⟨rfl, hrest⟩ := List.cons.inj hcalls
    have hget : p.getErr = 0 := hzero _ List.mem_cons_self
    rw [hget, check_zero]
    show (if p.checkErr = errVersion then _ else _) = _
    cases before with
    | nil =>
      -- `alpi_version_check`
      obtain ⟨hfirst, -⟩ := List.cons.inj hrest
      obtain ⟨rfl, rfl⟩ := Prod.mk.inj hfirst
      by_cases hversion : p.checkErr = errVersion
      · rw [if_pos hversion, if_pos ⟨rfl, hversion⟩, Process.message, if_pos ⟨rfl, hversion⟩]
        rfl
      · rw [if_neg hversion, if_neg fun hsite => hversion hsite.2]
        have hnone : ∀ c ∈ ([] : List (Site × Int)), c.2 = 0 := fun c hmem => by cases hmem
        exact checks_nonzero hnone herr
    | cons c before =>
      obtain ⟨rfl, hops'⟩ := List.cons.inj hrest
      have hops : p.ops.flatMap Op.calls = before ++ (site, err) :: after := hops'
      have hcheck : p.checkErr = 0 := hzero _ (List.mem_cons_of_mem _ List.mem_cons_self)
      have hmem : (site, err) ∈ p.ops.flatMap Op.calls := by
        rw [hops]
        exact List.mem_append_right _ List.mem_cons_self
      have hsite := versionCheck_not_mem hmem
      rw [if_neg (by rw [hcheck]; decide), if_neg fun hs => hsite hs.1, hops, ← List.cons_append]
      exact checks_nonzero (fun c hmem => hzero c (List.mem_cons_of_mem _ hmem)) herr

/-- A process in which some call fails makes the first of them. -/
theorem exists_made (hfail : ¬ ∀ c ∈ p.calls, c.2 = 0) : ∃ site err, p.Made site err ∧ err ≠ 0 := by
  have hsplit : ∀ l : List (Site × Int), (¬ ∀ c ∈ l, c.2 = 0) →
      ∃ before site err after, l = before ++ (site, err) :: after ∧
        (∀ c ∈ before, c.2 = 0) ∧ err ≠ 0 := by
    intro l
    induction l with
    | nil =>
      intro h
      exact absurd (fun c hmem => by cases hmem) h
    | cons c l ih =>
      intro h
      obtain ⟨site, err⟩ := c
      by_cases herr : err = 0
      · obtain ⟨before, site', err', after, rfl, hzero, herr'⟩ := ih fun hl => h fun c hmem => by
          rcases List.mem_cons.mp hmem with rfl | hmem'
          · exact herr
          · exact hl c hmem'
        refine ⟨(site, err) :: before, site', err', after, rfl, fun c hmem => ?_, herr'⟩
        rcases List.mem_cons.mp hmem with rfl | hmem'
        · exact herr
        · exact hzero c hmem'
      · exact ⟨[], site, err, l, rfl, fun c hmem => (by cases hmem), herr⟩
  obtain ⟨before, site, err, after, hcalls, hzero, herr⟩ := hsplit p.calls hfail
  exact ⟨site, err, ⟨before, after, hcalls, hzero⟩, herr⟩

end Reports

/-- **When failures are reported**: exactly if no ALPI function fails, `alpi_version_check` with
`ALPI_ERR_VERSION` apart. -/
theorem failures_reported_iff (rt : Runtime) (hpresent : ∀ symbol, rt.present symbol = true)
    (p : Process) :
    p.Reported rt ↔
      ∀ site err, p.Made site err → err ≠ 0 → site = .versionCheck ∧ err = errVersion := by
  constructor
  · intro h site err hmade herr
    by_contra hother
    refine h.no_null .errorString ?_
    rw [run_failure hpresent hmade herr, if_neg hother]
  · intro hcodes
    refine ⟨fun symbol hnull => ?_, fun site err hmade herr => ?_⟩
    · by_cases hzero : ∀ c ∈ p.calls, c.2 = 0
      · rw [run_zero hpresent hzero] at hnull
        cases hnull
      · obtain ⟨site, err, hmade, herr⟩ := exists_made hzero
        rw [run_failure hpresent hmade herr, if_pos (hcodes site err hmade herr)] at hnull
        cases hnull
    · rw [run_failure hpresent hmade herr, if_pos (hcodes site err hmade herr)]

/-- A runtime with all symbols. -/
def fullRuntime : Runtime where
  present _ := true
  errorString error := if error = 4 then "Not enough memory" else "Error code not recognized"

/-- A runtime of another version: the process ends with the version message. -/
theorem failures_reported_version :
    Process.Reported fullRuntime ⟨(2, 0), 0, errVersion, [.registerPolling 0]⟩ := by
  refine (failures_reported_iff fullRuntime (fun _ => rfl) _).mpr ?_
  rintro site err ⟨before, after, hcalls, hzero⟩ herr
  rcases before with _ | ⟨c, _ | ⟨c', before⟩⟩
  · obtain ⟨hfirst, -⟩ := List.cons.inj hcalls
    obtain ⟨-, rfl⟩ := Prod.mk.inj hfirst
    exact absurd rfl herr
  · obtain ⟨-, hrest⟩ := List.cons.inj hcalls
    obtain ⟨hfirst, -⟩ := List.cons.inj hrest
    obtain ⟨rfl, rfl⟩ := Prod.mk.inj hfirst
    exact ⟨rfl, rfl⟩
  · -- nothing is called after the check
    obtain ⟨-, hrest⟩ := List.cons.inj hcalls
    obtain ⟨rfl, -⟩ := List.cons.inj hrest
    have hcheck := hzero (.versionCheck, errVersion)
      (List.mem_cons_of_mem _ List.mem_cons_self)
    exact absurd hcheck (by decide)

/-- `alpi_task_spawn` runs out of memory (`ALPI_ERR_OUT_OF_MEMORY`): the process crashes. -/
theorem spawn_failure_crashes :
    Process.run fullRuntime ⟨(1, 0), 0, 0, [.registerPolling 4]⟩ =
      .error (.nullCall .errorString) ∧
    ¬ Process.Reported fullRuntime ⟨(1, 0), 0, 0, [.registerPolling 4]⟩ := by
  have hrun : Process.run fullRuntime ⟨(1, 0), 0, 0, [.registerPolling 4]⟩ =
      .error (.nullCall .errorString) := rfl
  exact ⟨hrun, fun h => h.no_null .errorString hrun⟩

end TaskingModel

end Tagaspi
