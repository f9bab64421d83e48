import Lemming.Packet.Field
import Lemming.Shared.Outcome

set_option autoImplicit false

namespace Lemming.Forwarding

open Packet Shared

inductive UpdateType where
  | inc
  | dec
  | set
  | copy
  | bitWrite
  | bitAnd
  | bitOr
  | unnamed (number : Int32)
deriving DecidableEq, Repr

inductive SelectAlgorithm where
  | crc32
  | crc16
  | random
  | unspecified
deriving DecidableEq, Repr

inductive ActionDesc where
  | dropAction
  | continueAction
  | debugAction
  | evaluateAction
  | outputAction
  | swapOutputAction
  | encapAction (headerID : Int32)
  | decapAction (headerID : Int32)
  | reparseAction (headerID : Int32) (fieldIds : List PacketFieldId) (prepended : Bytes)
  | rateAction (burstBytes rateBps : Int32)
  | updateAction (updateType : UpdateType) (fieldId : PacketFieldId) (value : Bytes)
      (field : Option PacketFieldId) (bitCount bitOffset : UInt32)
  | lookupAction (tableID : String)
  | learnAction (tableID : String)
  | transmitAction (portID : String) (immediate : Bool)
  | flowCounterAction (id : String)
  | mirrorAction (actions : List ActionDesc) (portID : Option String) (portAction : Int32)
      (fieldIds : List PacketFieldId)
  | selectAction (algorithm : SelectAlgorithm) (fieldIds : List PacketFieldId)
      (actionLists : List (UInt64 × List ActionDesc))

inductive Action where
  | drop
  | debug
  | evaluate
  | output
  | swapOutput
  | encap (id : Int32)
  | decap (id : Int32)
  | reparse (id : Int32) (fields : List FieldID) (prepended : Bytes)
  | ratelimit (burst rate : UInt64)
  | update (op : UpdateType) (fieldID : FieldID) (bytesArg : Bytes) (fieldArg : FieldID)
      (bitCount bitOffset : UInt32)
  | lookup (tableID : String)
  | learn (tableID : String)
  | transmit (portID : String) (immediate : Bool)
  | flowcounter (id : String)
  | mirror (portID : Option String) (dir : Int32) (actions : List Action) (fields : List FieldID)
  | selectActionList (hash : SelectAlgorithm) (fields : List FieldID) (choices : List (List Action))
      (weightBounds : List Int) (weightSum : UInt64)

-- Why an object cannot be acquired, if it cannot, and how messages print.
structure Objects where
  table : String → Option String
  isBridge : String → Bool
  port : String → Option String
  counter : String → Option String
  tableText : String → String
  descText : ActionDesc → String
  actionsText : List ActionDesc → String
  listText : UInt64 × List ActionDesc → String
  valueText : Bytes → String

-- Every object is there, and no text is printed.
instance : Inhabited Objects where
  default := ⟨fun _ => none, fun _ => true, fun _ => none, fun _ => none, fun _ => "", fun _ => "",
    fun _ => "", fun _ => "", fun _ => ""⟩

def goInt (n : UInt64) : Int :=
  n.toBitVec.toInt

def addWeights : List UInt64 → List Int × UInt64 → List Int × UInt64
  | [], built => built
  | weight :: rest, (bounds, sum) => addWeights rest (bounds ++ [goInt (weight + sum)], sum + weight)

-- With no weight at all every list has the same share.
def shares (weights : List UInt64) : List Int × UInt64 :=
  if weights.all (· == 0) then
    ((List.range weights.length).map fun i : Nat => (i : Int) + 1, UInt64.ofNat weights.length)
  else addWeights weights ([], 0)

section Building

variable (objects : Objects)

def acquired (failed : Option String) (kind : String) (action : Action) : Except String (Option Action) :=
  match failed with
  | some err => .error ("actions: Build for " ++ kind ++ " action failed, err " ++ err)
  | none => .ok (some action)

def newUpdate (updateType : UpdateType) (fieldId : PacketFieldId) (value : Bytes)
    (field : Option PacketFieldId) (bitCount bitOffset : UInt32) : Except String (Option Action) :=
  let failed := "actions: Build for update action failed, "
  let desc := objects.descText (.updateAction updateType fieldId value field bitCount bitOffset)
  let built : Option Action :=
    some (.update updateType (newFieldID fieldId) value (newFieldID (field.getD {})) bitCount bitOffset)
  match updateType with
  | .inc | .dec | .set | .bitOr | .bitAnd =>
    if value.length = 0 then .error (failed ++ "update " ++ desc ++ " is missing the bytes argument")
    else .ok built
  | .bitWrite =>
    if value.length = 0 then .error (failed ++ "update " ++ desc ++ " is missing the bytes argument")
    else if bitCount.toNat > 8 * value.length then
      .error (failed ++ "bit update value " ++ objects.valueText value ++
        " has fewer bytes than the bit count " ++ toString bitCount)
    else .ok built
  | .copy =>
    if field.isNone then .error (failed ++ "update " ++ desc ++ " is missing the field argument")
    else .ok built
  | .unnamed _ => .ok built

def portFields : List FieldID :=
  [newFieldIDFromNum PacketFieldNum.packetPortInput 0, newFieldIDFromNum PacketFieldNum.packetPortOutput 0]

mutual

def newAction : ActionDesc → Except String (Option Action)
  | .dropAction => .ok (some .drop)
  | .continueAction => .ok none
  | .debugAction => .ok (some .debug)
  | .evaluateAction => .ok (some .evaluate)
  | .outputAction => .ok (some .output)
  | .swapOutputAction => .ok (some .swapOutput)
  | .encapAction id => .ok (some (.encap id))
  | .decapAction id => .ok (some (.decap id))
  | .reparseAction id fieldIds prepended =>
    .ok (some (.reparse id (fieldIds.map newFieldID) prepended))
  | .rateAction burst rate => .ok (some (.ratelimit burst.toInt64.toUInt64 rate.toInt64.toUInt64))
  | .updateAction updateType fieldId value field bitCount bitOffset =>
    newUpdate objects updateType fieldId value field bitCount bitOffset
  | .lookupAction tableID => acquired (objects.table tableID) "lookup" (.lookup tableID)
  | .learnAction tableID =>
    if objects.table tableID = none ∧ objects.isBridge tableID = false then
      .error ("actions: Build for learn action failed, table " ++ objects.tableText tableID ++
        " is not a bridge")
    else acquired (objects.table tableID) "learn" (.learn tableID)
  | .transmitAction portID immediate =>
    acquired (objects.port portID) "transmit" (.transmit portID immediate)
  | .flowCounterAction id => acquired (objects.counter id) "flowcounter" (.flowcounter id)
  | .mirrorAction descs portID portAction fieldIds =>
    match newActions descs with
    | .error err =>
      .error ("actions: Unable to create actions " ++ objects.actionsText descs ++ ", err " ++ err)
    | .ok actions =>
      acquired (portID.bind objects.port) "mirror"
        (.mirror portID portAction actions (fieldIds.map newFieldID ++ portFields))
  | .selectAction algorithm fieldIds actionLists =>
    match algorithm with
    | .unspecified =>
      .error "actions: Unable to find select function SELECT_ALGORITHM_UNSPECIFIED"
    | _ =>
      match newChoices actionLists with
      | .error err => .error err
      | .ok choices =>
        let (bounds, sum) := shares (actionLists.map Prod.fst)
        .ok (some (.selectActionList algorithm (fieldIds.map newFieldID) choices bounds sum))

def newActions : List ActionDesc → Except String (List Action)
  | [] => .ok []
  | desc :: rest =>
    match newAction desc with
    | .error err => .error err
    | .ok action =>
      match newActions rest with
      | .error err => .error err
      | .ok actions => .ok (action.toList ++ actions)

def newChoices : List (UInt64 × List ActionDesc) → Except String (List (List Action))
  | [] => .ok []
  | (weight, descs) :: rest =>
    match newActions descs with
    | .error err =>
      .error ("actions: Unable to create actions " ++ objects.listText (weight, descs) ++ ", err " ++ err)
    | .ok actions =>
      match newChoices rest with
      | .error err => .error err
      | .ok choices => .ok (actions :: choices)

end

end Building

end Lemming.Forwarding
