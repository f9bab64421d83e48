import Lemming.Forwarding.Action
import Lemming.Object.Release

set_option autoImplicit false

namespace Lemming.Build

open Shared
open Forwarding (SelectAlgorithm)
open Object (Table Kind newID)

inductive ObjectKind where
  | port
  | table
  | bridge
  | flowCounter
  | other
deriving DecidableEq

abbrev ObjectRef := Option (Option String)

-- What an action is described by. `plain` are the builders that take no reference, with the error of
-- the one that is asked; a `none` stands for a description of another type.
inductive ActionDesc where
  | missing
  | unregistered
  | continue
  | plain (err : Option String)
  | transmit (port : Option ObjectRef)
  | lookup (table : Option ObjectRef)
  | learn (table : Option ObjectRef)
  | flowCounter (counter : Option ObjectRef)
  | mirrorMissing
  | mirror (actions : List ActionDesc) (port : ObjectRef)
  | selectMissing
  | select (algorithm : SelectAlgorithm) (actionLists : List (List ActionDesc))

inductive Action (O : Type) where
  | plain
  | single (object : O)
  | mirror (port : Option O) (actions : List (Action O))
  | select (choices : List (List (Action O)))

structure Texts where
  desc : ActionDesc → String
  actions : List ActionDesc → String
  ref : ObjectRef → String
  algorithm : SelectAlgorithm → String

variable {O : Type}

mutual

def Action.refs : Action O → List O
  | .plain => []
  | .single o => [o]
  | .mirror port actions => port.toList ++ refsAll actions
  | .select choices => refsChoices choices

def refsAll : List (Action O) → List O
  | [] => []
  | a :: rest => a.refs ++ refsAll rest

def refsChoices : List (List (Action O)) → List O
  | [] => []
  | actions :: rest => refsAll actions ++ refsChoices rest

end

section Building

variable [DecidableEq O] (kind : Kind O) (kinds : O → ObjectKind) (texts : Texts)

def releaseRefs (t : Table O) : List O → Outcome (Table O)
  | [] => .ok t
  | o :: rest => do
    let (t, _) ← t.release kind o false
    releaseRefs t rest

variable (t : Table O)

def cleanup (actions : List (Action O)) : Outcome (Table O) :=
  releaseRefs kind t (refsAll actions)

structure Package where
  unspecified : String
  mismatch : String → String
  test : ObjectKind → Bool

def fwdport : Package where
  unspecified := "fwdport: acquire failed, no port specified"
  mismatch ref := "fwdport: acquire failed, " ++ ref ++ " is not a port"
  test kind := kind = .port

def fwdtable : Package where
  unspecified := "fwdtable: acquire failed, no table specified"
  mismatch ref := "fwdtable: acquire failed, " ++ ref ++ " is not a table"
  test kind := kind = .table ∨ kind = .bridge

def fwdflowcounter : Package where
  unspecified := "fwdflowcounter: Acquire failed, no flow counter specified"
  mismatch ref := "fwdflowcounter: Acquire failed, " ++ ref ++ " is not a FlowCounter"
  test kind := kind = .flowCounter

def Package.acquire (p : Package) (t : Table O) (ref : ObjectRef) :
    Outcome (Table O × Except String O) :=
  match ref with
  | none => .ok (t, .error p.unspecified)
  | some oid =>
    match t.acquire oid with
    | (t, _, some err) => .ok (t, .error err)
    | (_, none, none) => .panic
    | (t, some o, none) =>
      if p.test (kinds o) then .ok (t, .ok o)
      else do
        let (t, _) ← t.release kind o false
        return (t, .error (p.mismatch (texts.ref ref)))

def newSingle (p : Package) (missing failed : String) (t : Table O) (desc : Option ObjectRef) :
    Outcome (Table O × Except String (Option (Action O))) :=
  match desc with
  | none => .ok (t, .error missing)
  | some ref => do
    match ← p.acquire kind kinds texts t ref with
    | (t, .error err) => return (t, .error (failed ++ err))
    | (t, .ok o) => return (t, .ok (some (.single o)))

def newTransmit : Table O → Option ObjectRef → Outcome (Table O × Except String (Option (Action O))) :=
  newSingle kind kinds texts fwdport "actions: Build for lookup action failed, missing extension"
    "actions: Build for transmit action failed, err "

def newLookup : Table O → Option ObjectRef → Outcome (Table O × Except String (Option (Action O))) :=
  newSingle kind kinds texts fwdtable "actions: Build for lookup action failed, missing desc"
    "actions: Build for lookup action failed, err "

def newFlowCounter :
    Table O → Option ObjectRef → Outcome (Table O × Except String (Option (Action O))) :=
  newSingle kind kinds texts fwdflowcounter
    "actions: Build for flowcounter action failed, missing desc"
    "actions: Build for flowcounter action failed, err "

def newLearn (desc : Option ObjectRef) :
    Outcome (Table O × Except String (Option (Action O))) :=
  match desc with
  | none => .ok (t, .error "actions: Build for learn action failed, missing extension")
  | some ref => do
    match ← fwdtable.acquire kind kinds texts t ref with
    | (t, .error err) => return (t, .error ("actions: Build for learn action failed, err " ++ err))
    | (t, .ok o) =>
      if kinds o = .bridge then .ok (t, .ok (some (.single o)))
      else do
        let (t, _) ← t.release kind o false
        return (t, .error ("actions: Build for learn action failed, table " ++ texts.ref ref ++
          " is not a bridge"))

def mirrorPort (actions : List (Action O)) (port : ObjectRef) :
    Outcome (Table O × Except String (Option (Action O))) :=
  match port with
  | none => .ok (t, .ok (some (.mirror none actions)))
  | some _ => do
    match ← fwdport.acquire kind kinds texts t port with
    | (t, .ok o) => return (t, .ok (some (.mirror (some o) actions)))
    | (t, .error err) =>
      let t ← cleanup kind t actions
      return (t, .error ("actions: Build for mirror action failed, err " ++ err))

mutual

def newAction (t : Table O) : ActionDesc → Outcome (Table O × Except String (Option (Action O)))
  | .missing => .ok (t, .error "fwdaction: new failed, no descriptor for action")
  | .unregistered =>
    .ok (t, .error ("fwdaction: new failed, no builder for action " ++ texts.desc .unregistered))
  | .continue => .ok (t, .ok none)
  | .plain none => .ok (t, .ok (some .plain))
  | .plain (some err) => .ok (t, .error err)
  | .transmit port => newTransmit kind kinds texts t port
  | .lookup table => newLookup kind kinds texts t table
  | .learn table => newLearn kind kinds texts t table
  | .flowCounter counter => newFlowCounter kind kinds texts t counter
  | .mirrorMissing => .ok (t, .error "actions: Build for mirror action failed, missing extension")
  | .mirror actions port => do
    match ← newActionsLoop t [] actions with
    | (t, .error err) => return (t, .error ("actions: Unable to create actions " ++
        texts.actions actions ++ ", err " ++ err))
    | (t, .ok built) => mirrorPort kind kinds texts t built port
  | .selectMissing =>
    .ok (t, .error "actions: Build for selectActionList action failed, missing desc")
  | .select algorithm actionLists =>
    if algorithm = .unspecified then
      .ok (t, .error ("actions: Unable to find select function " ++ texts.algorithm algorithm))
    else newChoices t [] actionLists

def newActionsLoop (t : Table O) (built : List (Action O)) :
    List ActionDesc → Outcome (Table O × Except String (List (Action O)))
  | [] => .ok (t, .ok built)
  | desc :: rest => do
    match ← newAction t desc with
    | (t, .ok action) => newActionsLoop t (built ++ action.toList) rest
    | (t, .error err) =>
      let t ← cleanup kind t built
      return (t, .error err)

-- The loop of the select builder. The lists that it has built are not cleaned up if one fails.
def newChoices (t : Table O) (built : List (List (Action O))) :
    List (List ActionDesc) → Outcome (Table O × Except String (Option (Action O)))
  | [] => .ok (t, .ok (some (.select built)))
  | descs :: rest => do
    match ← newActionsLoop t [] descs with
    | (t, .ok actions) => newChoices t (built ++ [actions]) rest
    | (t, .error err) => return (t, .error ("actions: Unable to create actions " ++
        texts.actions descs ++ ", err " ++ err))

end

def newActions (descs : List ActionDesc) :
    Outcome (Table O × Except String (List (Action O))) :=
  newActionsLoop kind kinds texts t [] descs

inductive TableType where
  | exact
  | pfx
  | flow
  | bridge
  | action
  | unregistered
deriving DecidableEq

structure TableDesc where
  tableType : TableType
  given : Bool
  actions : List ActionDesc
  tableId : ObjectRef

def TableType.errors : TableType → String × String
  | .exact => ("exact: Build for exact table failed, missing desc",
      "exact: Build for extact table failed, err ")
  | .pfx => ("prefix: Build for table failed, missing desc", "prefix: Build for table failed, err ")
  | .flow => ("flow: Build for flow table failed, missing desc",
      "flow: Build for flow table failed, err ")
  | .bridge => ("bridge: Build for bridge table failed, missing extension",
      "bridge: Build for bridge table failed: exact: Build for extact table failed, err ")
  | _ => ("", "")

-- The builder of a table, up to its default actions. An action table needs no description of its own.
-- The counters of a table are different ones, and are set up without an error.
def buildTable (desc : TableDesc) :
    Outcome (Table O × Except String (List (Action O))) :=
  if desc.tableType ≠ .action ∧ desc.given = false then
    .ok (t, .error desc.tableType.errors.1)
  else do
    match ← newActions kind kinds texts t desc.actions with
    | (t, .error err) => return (t, .error (desc.tableType.errors.2 ++ err))
    | (t, .ok actions) => return (t, .ok actions)

def holding (self : O) (refs : List O) : Kind O where
  composite := Function.update kind.composite self true
  held := fun t => Function.update (kind.held t) self refs
  string := kind.string

def newTable (self : O) (desc : Option TableDesc) (printed : String) :
    Outcome (Table O × Except String Unit) :=
  match desc with
  | none => .ok (t, .error "fwdtable: new failed, missing description")
  | some desc =>
    if desc.tableType = .unregistered then
      .ok (t, .error ("fwdtable: new failed, no builder for table " ++ printed))
    else do
      match ← buildTable kind kinds texts t desc with
      | (t, .error err) => return (t, .error err)
      | (t, .ok actions) =>
        match desc.tableId with
        | none => return (t, .error "fwdtable: new failed, missing id")
        | some oid =>
          match ← t.insert (holding kind self (refsAll actions)) self oid with
          | (t, some err) => return (t, .error err)
          | (t, none) => return (t, .ok ())

end Building

end Lemming.Build
