import Lemming.Build.Actions
import Lemming.Shared.Iteration

set_option autoImplicit false

namespace Lemming.Ports

open Shared
open Object (Table Kind ID)
open Build

inductive AggregateHashAlgorithm where
  | unspecified
  | crc16
  | crc32
  | flood
deriving DecidableEq

inductive HashFn where
  | hashCRC32
  | hashCRC16
deriving DecidableEq

inductive PacketFn where
  | selectLink
  | floodLink
deriving DecidableEq

structure Member (O : Type) where
  port : O
  actions : List (Action O)
  instances : Nat

abbrev Record (O : Type) := Sigma fun _ : ID => Member O

structure Group (O F : Type) where
  fields : List F
  hashFn : Option HashFn
  hash : AggregateHashAlgorithm
  packetFn : Option PacketFn
  members : List (Record O)
  memberMap : GoMap ID (Member O)

def Group.new (O F : Type) : Group O F := ⟨[], none, .unspecified, none, [], ∅⟩

structure Printing (O F : Type) extends Texts where
  group : Group O F → String
  hash : AggregateHashAlgorithm → String

structure State (O F : Type) where
  table : Table O
  group : Group O F

def memberID : ObjectRef → ID
  | some (some oid) => oid
  | _ => Object.InvalidID

structure Orders (O : Type) where
  members : Shuffle (Record O)
  curr : Shuffle (Record O)
  actions : Shuffle (Sigma fun _ : ID => List (Action O))

inductive Update (F : Type) where
  | missing
  | aggregate (portIds : List ObjectRef) (hash : AggregateHashAlgorithm) (fieldIds : List F)
      (selectActions : List (ObjectRef × List ActionDesc))
  | aggregateAdd (portId : ObjectRef) (selectActions : List ActionDesc) (instanceCount : Nat)
  | aggregateDel (portId : ObjectRef)
  | aggregateAlgo (hash : AggregateHashAlgorithm) (fieldIds : List F)

variable {O F : Type}

def Member.refs (m : Member O) : List O := m.port :: refsAll m.actions

def selection (order : Shuffle (Record O)) (memberMap : GoMap ID (Member O)) : List (Record O) :=
  (order.arrange memberMap.entries).flatMap fun m => List.replicate m.2.instances m

def Group.recompute (order : Shuffle (Record O)) (p : Group O F) : Group O F :=
  { p with members := selection order p.memberMap }

-- `updateAlgorithm`. An unknown algorithm keeps the functions of the last one.
def Group.updateAlgorithm (print : Printing O F) (p : Group O F) (fields : List F)
    (hash : AggregateHashAlgorithm) : Group O F × Option String :=
  let p := { p with fields, hash }
  match hash with
  | .crc32 => ({ p with hashFn := some .hashCRC32, packetFn := some .selectLink }, none)
  | .crc16 => ({ p with hashFn := some .hashCRC16, packetFn := some .selectLink }, none)
  | .flood => ({ p with packetFn := some .floodLink }, none)
  | .unspecified => (p, some ("ports: Unable to find hash function " ++ print.hash hash))

section Requests

variable [DecidableEq O] (kind : Kind O) (kinds : O → ObjectKind) (print : Printing O F)

def cleanupMembers (t : Table O) : List (Record O) → Outcome (Table O)
  | [] => .ok t
  | m :: rest => do
    let t ← releaseRefs kind t m.2.refs
    cleanupMembers t rest

def cleanupUnused (t : Table O) : List (Sigma fun _ : ID => List (Action O)) → Outcome (Table O)
  | [] => .ok t
  | a :: rest => do
    let t ← cleanup kind t a.2
    cleanupUnused t rest

variable (order : Shuffle (Record O))

def State.cleanup (s : State O F) : Outcome (State O F) := do
  let table ← cleanupMembers kind s.table (order.arrange s.group.memberMap.entries)
  return { table, group := { s.group with memberMap := ∅, members := [] } }

def removeGroupMember (s : State O F) (portId : ObjectRef) :
    Outcome (State O F × Option String) :=
  let pid := memberID portId
  match s.group.memberMap.lookup pid with
  | none => .ok (s, some ("ports: Unable to find port " ++ pid ++ " in " ++ print.group s.group))
  | some m => do
    let group := { s.group with memberMap := s.group.memberMap.erase pid }.recompute order
    let table ← releaseRefs kind s.table m.refs
    return ({ table, group }, none)

def newGroupMember (t : Table O) (pid : ObjectRef) (actions : List (Action O)) (instances : Nat) :
    Outcome (Table O × Except String (Member O)) := do
  match ← fwdport.acquire kind kinds print.toTexts t pid with
  | (t, .error err) =>
    return (t, .error ("ports: Unable to create port group, missing member: " ++ err))
  | (t, .ok port) => return (t, .ok { port, actions, instances })

def unableToCreate (desc : List ActionDesc) (pid err : String) : String :=
  "ports: Unable to create select actions " ++ print.actions desc ++ " for member " ++ pid ++ ": " ++ err

def addGroupMember (s : State O F) (portId : ObjectRef)
    (selectActions : List ActionDesc) (instanceCount : Nat) : Outcome (State O F × Option String) :=
  let pid := memberID portId
  match s.group.memberMap.lookup pid with
  | some _ => .ok (s, some ("ports: Unable to overwrite an existing port " ++ pid ++ " in " ++
      print.group s.group))
  | none => do
    match ← newActions kind kinds print.toTexts s.table selectActions with
    | (table, .error err) =>
      return ({ s with table }, some (unableToCreate print selectActions pid err))
    | (table, .ok actions) =>
      match ← newGroupMember kind kinds print table portId actions instanceCount with
      | (table, .error err) =>
        return ({ s with table }, some ("ports: Unable to create member: " ++ err))
      | (table, .ok m) =>
        let group := { s.group with memberMap := s.group.memberMap.insert pid m }.recompute order
        return ({ table, group }, none)

def selectActionsLoop (t : Table O) (actions : GoMap ID (List (Action O))) :
    List (ObjectRef × List ActionDesc) →
      Outcome (Table O × Except String (GoMap ID (List (Action O))))
  | [] => .ok (t, .ok actions)
  | (pid, desc) :: rest => do
    match ← newActions kind kinds print.toTexts t desc with
    | (t, .error err) => return (t, .error (unableToCreate print desc (print.ref pid) err))
    | (t, .ok a) => selectActionsLoop t (actions.insert (memberID pid) a) rest

-- The second loop of `updateGroup`: the members, with the actions that are still unused. A port is
-- acquired here, and once more by `newGroupMember`.
def membersLoop (t : Table O) (actions : GoMap ID (List (Action O)))
    (memberMap : GoMap ID (Member O)) : List ObjectRef →
      Outcome (Table O × Except String (GoMap ID (List (Action O)) × GoMap ID (Member O)))
  | [] => .ok (t, .ok (actions, memberMap))
  | id :: rest =>
    let pid := memberID id
    match memberMap.lookup pid with
    | some m => membersLoop t actions (memberMap.insert pid { m with instances := m.instances + 1 }) rest
    | none => do
      match ← fwdport.acquire kind kinds print.toTexts t id with
      | (t, .error err) =>
        return (t, .error ("ports: Unable to create port group, missing member: " ++ err))
      | (t, .ok port) =>
        let portID := (t.objects port).id
        let a := (actions.lookup portID).getD []
        match ← newGroupMember kind kinds print t id a 1 with
        | (t, .error err) =>
          return (t, .error ("ports: Unable to create port group member: " ++ err))
        | (t, .ok m) => membersLoop t (actions.erase portID) (memberMap.insert pid m) rest

def updateGroup (orders : Orders O) (s : State O F) (portIds : List ObjectRef)
    (hash : AggregateHashAlgorithm) (fieldIds : List F)
    (selectActions : List (ObjectRef × List ActionDesc)) : Outcome (State O F × Option String) :=
  match s.group.updateAlgorithm print fieldIds hash with
  | (group, some err) => .ok ({ s with group }, some err)
  | (group, none) => do
    match ← selectActionsLoop kind kinds print s.table ∅ selectActions with
    | (table, .error err) => return ({ table, group }, some err)
    | (table, .ok actions) =>
      match ← membersLoop kind kinds print table actions ∅ portIds with
      | (table, .error err) => return ({ table, group }, some err)
      | (table, .ok (actions, memberMap)) =>
        let curr := group.memberMap
        let table ← cleanupMembers kind table (orders.curr.arrange curr.entries)
        let table ← cleanupUnused kind table (orders.actions.arrange actions.entries)
        return ({ table, group := { group with memberMap }.recompute orders.members }, none)

def update (orders : Orders O) (s : State O F) : Update F → Outcome (State O F × Option String)
  | .missing => .ok (s, some "ports: no extension specified")
  | .aggregate portIds hash fieldIds selectActions =>
    updateGroup kind kinds print orders s portIds hash fieldIds selectActions
  | .aggregateAdd portId selectActions instanceCount =>
    addGroupMember kind kinds print orders.members s portId selectActions instanceCount
  | .aggregateDel portId => removeGroupMember kind print orders.members s portId
  | .aggregateAlgo hash fieldIds =>
    let (group, err) := s.group.updateAlgorithm print fieldIds hash
    .ok ({ s with group }, err)

end Requests

end Lemming.Ports
