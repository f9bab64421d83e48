import Mathlib.Tactic.Common

set_option autoImplicit false

namespace Lemming.Packet

section

abbrev Bytes := List UInt8

structure FieldID where
  isUDF : Bool := false
  inst : UInt8 := 0
  num : Int32 := 0
  header : Int32 := 0
  offset : UInt8 := 0
  size : UInt8 := 0
deriving DecidableEq, Repr

structure PacketField where
  fieldNum : Int32
  inst : UInt32

structure PacketBytes where
  headerGroup : Int32
  offset : UInt32
  size : UInt32
  inst : UInt32

structure PacketFieldId where
  bytes : Option PacketBytes := none
  field : Option PacketField := none

def newFieldIDFromBytes (header : Int32) (offset size inst : UInt32) : FieldID where
  isUDF := true
  size := size.toUInt8
  header
  offset := offset.toUInt8
  inst := inst.toUInt8

def newFieldIDFromNum (num : Int32) (inst : UInt32) : FieldID where
  num
  inst := inst.toUInt8

def newFieldID (field : PacketFieldId) : FieldID :=
  match field.bytes, field.field with
  | some b, _ => newFieldIDFromBytes b.headerGroup b.offset b.size b.inst
  | none, some f => newFieldIDFromNum f.fieldNum f.inst
  | none, none => {}

def resize (field : Bytes) (size : Nat) : Bytes :=
  if field.length < size then List.replicate (size - field.length) 0 ++ field
  else field.drop (field.length - size)

variable (maxSize : FieldID → Nat)

def pad (id : FieldID) (field : Bytes) : Bytes :=
  if maxSize id < field.length then field else resize field (maxSize id)

theorem pad_length (id : FieldID) (field : Bytes) :
    (pad maxSize id field).length = max (maxSize id) field.length := by
  unfold pad resize
  split
  · omega
  · split
    · simp only [List.length_append, List.length_replicate]
      omega
    · rw [List.length_drop]
      omega

theorem pad_nil (id : FieldID) : pad maxSize id [] = List.replicate (maxSize id) 0 := by
  unfold pad resize
  by_cases empty : maxSize id = 0
  · simp [empty]
  · have wide : 0 < maxSize id := by omega
    simp [wide]

end

namespace PacketFieldNum

def etherMacSrc : Int32 := 2
def etherMacDst : Int32 := 3
def etherType : Int32 := 4
def vlanTag : Int32 := 5
def vlanPriority : Int32 := 6
def ipVersion : Int32 := 7
def ipAddrSrc : Int32 := 8
def ipAddrDst : Int32 := 9
def ipHop : Int32 := 10
def ipProto : Int32 := 11
def ipQos : Int32 := 12
def ip6Flow : Int32 := 13
def packetPortInput : Int32 := 14
def packetPortOutput : Int32 := 15
def packetLength : Int32 := 16
def icmpType : Int32 := 17
def icmpCode : Int32 := 18
def l4PortSrc : Int32 := 19
def l4PortDst : Int32 := 20
def tcpFlags : Int32 := 21
def arpTpa : Int32 := 22
def greKey : Int32 := 23
def greSequence : Int32 := 24
def packetVrf : Int32 := 25
def icmp6NdTarget : Int32 := 26
def icmp6NdSll : Int32 := 27
def icmp6NdTll : Int32 := 28
def packetAttribute32 : Int32 := 34
def packetAttribute16 : Int32 := 46
def packetAttribute8 : Int32 := 49
def packetAttribute24 : Int32 := 50
def arpTmac : Int32 := 52
def arpSmac : Int32 := 53
def arpSpa : Int32 := 54
def nextHopIp : Int32 := 56
def nextHopGroupId : Int32 := 57
def nextHopId : Int32 := 58
def trapId : Int32 := 59
def inputIface : Int32 := 60
def outputIface : Int32 := 61
def tunnelId : Int32 := 62
def hostPortId : Int32 := 63

end PacketFieldNum

open PacketFieldNum in
def fieldAttr : List (Int32 × List Nat) :=
  [(packetLength, [8]), (packetPortInput, [8]), (packetPortOutput, [8]), (packetVrf, [8]),
   (packetAttribute32, [4]), (packetAttribute24, [3]), (packetAttribute16, [2]),
   (packetAttribute8, [1]), (etherMacSrc, [6]), (etherMacDst, [6]), (vlanTag, [2]),
   (vlanPriority, [2]), (etherType, [2]), (ipVersion, [1]), (ipAddrSrc, [4, 16]),
   (ipAddrDst, [4, 16]), (ipProto, [1]), (ipHop, [1]),
   -- The traffic class is padded to the four bytes of the field that holds it.
   (ipQos, [4]), (ip6Flow, [4]), (icmpType, [1]), (icmpCode, [1]), (icmp6NdSll, [6]),
   (icmp6NdTll, [6]), (icmp6NdTarget, [16]), (l4PortSrc, [2]), (l4PortDst, [2]), (tcpFlags, [2]),
   (arpTpa, [4]), (arpSpa, [4]), (greKey, [4]), (arpTmac, [6]), (arpSmac, [6]), (greSequence, [4]),
   (nextHopIp, [4, 16]), (nextHopId, [8]), (nextHopGroupId, [8]), (trapId, [8]), (inputIface, [8]),
   (outputIface, [8]), (tunnelId, [8]), (hostPortId, [8])]

namespace Parser

def defaultSize (sizes : List Nat) : Nat :=
  sizes.foldl max 0

def maxSize (id : FieldID) : Nat :=
  if id.isUDF then id.size.toNat
  else
    match fieldAttr.lookup id.num with
    | none => 0
    | some sizes => defaultSize sizes

-- `text` is how a field prints, and `group` how the group of its header does.
def validate (text group : FieldID → String) (id : FieldID) (size : Nat) : Option String :=
  if id.isUDF then
    if id.size.toNat ≠ size then
      some ("Validate failed for field " ++ text id ++ ", got " ++ toString size ++ " want " ++
        toString id.size)
    else none
  else
    match fieldAttr.lookup id.num with
    | none => some ("Validate failed for field " ++ text id ++ ", unknown field")
    | some sizes =>
      if size ∈ sizes then none
      else some ("Validate failed for field " ++ text id ++ ", " ++ toString size ++
        " does not satisfy \x7bSizes:[" ++ " ".intercalate (sizes.map toString) ++ "] DefaultSize:" ++
        toString (defaultSize sizes) ++ " Group:" ++ group id ++ "\x7d")

theorem le_foldl_max {sizes : List Nat} {size : Nat} (start : Nat)
    (bounded : size ≤ start ∨ size ∈ sizes) : size ≤ sizes.foldl max start := by
  induction sizes generalizing start with
  | nil => simpa using bounded
  | cons first rest ih =>
    apply ih
    rcases bounded with small | member
    · exact Or.inl (Nat.le_trans small (Nat.le_max_left start first))
    · rcases List.mem_cons.mp member with same | later
      · exact Or.inl (same ▸ Nat.le_max_right start first)
      · exact Or.inr later

theorem le_maxSize_of_validate {text group : FieldID → String} {id : FieldID} {size : Nat}
    (valid : validate text group id size = none) : size ≤ maxSize id := by
  unfold validate at valid
  unfold maxSize
  split at valid
  · next udf =>
    rw [if_pos udf]
    split at valid
    · cases valid
    · next same => omega
  · next named =>
    rw [if_neg named]
    cases found : fieldAttr.lookup id.num with
    | none => simp [found] at valid
    | some sizes =>
      simp only [found] at valid
      split at valid
      · next member => exact le_foldl_max 0 (Or.inr member)
      · cases valid

end Parser

end Lemming.Packet
