import Lemming.Protocol.Parse

set_option autoImplicit false

namespace Lemming.Protocol

open Shared Lemming.Packet

inductive UpdateOp where
  | inc
  | dec
  | set
  | other (code : Int)
deriving DecidableEq, Repr

namespace Field

def set (value field : Bytes) : Outcome Bytes :=
  .ok (resize value field.length)

def setBits (bitpos bitcount : UInt64) (bitmask : Nat) (field : Bytes) : Outcome Bytes :=
  if field.length * 8 ≤ (bitpos + bitcount - 1).toNat then .panic
  else if Numeric field then
    let clr := ~~~(((1 <<< bitcount) - 1) <<< bitpos)
    let set := UInt64.ofNat bitmask <<< bitpos
    .ok (octetsOf field.length ((UInt64.ofNat (octetsValue field) &&& clr) ||| set).toNat)
  else .panic

def bigEndian (n : Nat) (arg : Bytes) : Outcome Nat :=
  if arg.length < n then .panic else .ok (octetsValue (arg.take n))

end Field

namespace Header

def setValue (heap : Heap UInt8) (header : Slice) (off n value : Nat) : Outcome (Heap UInt8) :=
  if header.len < off + n then .panic
  else if n = 1 ∨ n = 2 ∨ n = 4 ∨ n = 8 then
    .ok ((header.sub off n).set heap (octetsOf n value))
  else .panic

end Header

inductive FieldRef where
  | part (off n : Nat)
  | copy (bytes : Bytes)

namespace FieldRef

def within (header : Slice) (off n : Nat) : Option FieldRef :=
  if header.len < off + n then none else some (.part off n)

def find (places : List (Int32 × Nat × Nat)) (header : Slice) (id : FieldID) : Option FieldRef :=
  if id.isUDF then within header id.offset.toNat id.size.toNat
  else (places.lookup id.num).bind fun (off, n) => within header off n

def get (heap : Heap UInt8) (header : Slice) : FieldRef → Bytes
  | .part off n => (header.sub off n).get heap
  | .copy bytes => bytes

def update (heap : Heap UInt8) (header : Slice) (change : Bytes → Outcome Bytes) :
    FieldRef → Outcome (Heap UInt8)
  | .part off n => do
    return (header.sub off n).set heap (← change ((header.sub off n).get heap))
  | .copy bytes => do
    let _ ← change bytes
    return heap

end FieldRef

-- The numbers of the named fields of the frame.
def macSrcField : Int32 := 2
def macDstField : Int32 := 3
def etherTypeField : Int32 := 4
def vlanTagField : Int32 := 5
def vlanPriorityField : Int32 := 6
def versionField : Int32 := 7
def srcField : Int32 := 8
def dstField : Int32 := 9
def hopField : Int32 := 10
def protoField : Int32 := 11
def qosField : Int32 := 12
def flowField : Int32 := 13
def icmpTypeField : Int32 := 17
def icmpCodeField : Int32 := 18
def portSrcField : Int32 := 19
def portDstField : Int32 := 20
def tcpFlagsField : Int32 := 21
def arpTPAField : Int32 := 22
def keyField : Int32 := 23
def sequenceField : Int32 := 24
def ndTargetField : Int32 := 26
def ndSLLField : Int32 := 27
def ndTLLField : Int32 := 28
def arpTMACField : Int32 := 52
def arpSMACField : Int32 := 53
def arpSPAField : Int32 := 54

def firstField : UInt8 := 0
def lastField : UInt8 := 255

namespace IPHeader

def ip4Places : List (Int32 × Nat × Nat) :=
  [(srcField, 12, 4), (dstField, 16, 4), (hopField, 8, 1), (protoField, 9, 1), (qosField, 1, 1)]

def ip6Places : List (Int32 × Nat × Nat) :=
  [(srcField, 8, 16), (dstField, 24, 16), (hopField, 7, 1), (protoField, 6, 1), (qosField, 0, 4),
    (flowField, 0, 4)]

section

variable (heap : Heap UInt8)

def field (places : List (Int32 × Nat × Nat)) (header : Slice) (id : FieldID) :
    Outcome (Option FieldRef) :=
  if id.isUDF = false ∧ id.num = versionField then
    if header.len < 1 then .ok none
    else do return some (.copy (← Field.bitField ((header.sub 0 1).get heap) 4 4))
  else .ok (FieldRef.find places header id)

def find (id : FieldID) : IPHeader Slice → Outcome Bytes
  | .ip4 header _ => do
    match ← field heap ip4Places header id with
    | none => .error "ip4: Find failed, field does not exist"
    | some ref => return ref.get heap header
  | .ip6 header _ => do
    match ← field heap ip6Places header id with
    | none => .error "ip6: find failed, field does not exist"
    | some ref =>
      let field := ref.get heap header
      if id.isUDF then return field
      else if id.num = qosField then Field.bitField field 20 8
      else if id.num = flowField then Field.bitField field 0 20
      else return field
  | .gre _ key seq _ =>
    if id.isUDF = false ∧ id.num = keyField ∧ key.len ≠ 0 then .ok (key.get heap)
    else if id.isUDF = false ∧ id.num = sequenceField ∧ seq.len ≠ 0 then .ok (seq.get heap)
    else .error "gre: Find failed, field does not exist"

variable (header : Slice)

def decrementTTL (ref : FieldRef) : Outcome (Heap UInt8) := do
  let pttl := UInt16.ofNat (← Field.value (ref.get heap header))
  let nttl := pttl - 1
  let heap ← ref.update heap header fun field => .ok (octetsOf field.length nttl.toNat)
  let psum := UInt16.ofNat (← Field.value (Header.field (header.get heap) 10 2))
  let nsum := ~~~(~~~psum + ~~~pttl + nttl)
  Header.setValue heap header 10 2 nsum.toNat

def updateIP4 (id : FieldID) (op : UpdateOp) (arg : Bytes) :
    Outcome (Heap UInt8 × Bool) := do
  match ← field heap ip4Places header id with
  | none => .error "ip4: Update failed, field does not exist"
  | some ref =>
    match op with
    | .dec =>
      if id.isUDF = false ∧ id.num = hopField then return (← decrementTTL heap header ref, false)
      else .error "ip4: update failed, unsupported op for field"
    | .set => return (← ref.update heap header (Field.set arg), true)
    | _ => .error "ip4: update failed, unsupported op for field"

def updateIP6 (id : FieldID) (op : UpdateOp) (arg : Bytes) :
    Outcome (Heap UInt8 × Bool) := do
  match ← field heap ip6Places header id with
  | none => .error "ip6: update failed, field does not exist"
  | some ref =>
    match op with
    | .dec =>
      if id.isUDF ∨ id.num ≠ hopField then .error "ip6: update failed, unsupported op for field"
      else
        let ttl := UInt64.ofNat (← Field.value (ref.get heap header))
        let heap ← ref.update heap header fun field => .ok (octetsOf field.length (ttl - 1).toNat)
        return (heap, false)
    -- Unlike `Find`, the update looks at the field number of a user-defined field too.
    | .set =>
      if id.num = qosField then
        let bits ← Field.bigEndian 4 arg
        return (← ref.update heap header (Field.setBits 20 8 bits), true)
      else if id.num = flowField then
        let bits ← Field.bigEndian 4 arg
        return (← ref.update heap header (Field.setBits 0 20 bits), true)
      else return (← ref.update heap header (Field.set arg), true)
    | _ => .error "ip6: update failed, unsupported op for field"

def updateOption (option : Slice) (bit : UInt64) (arg : Bytes) :
    Outcome (Heap UInt8 × Slice) := do
  let (heap, option) ←
    if option.len = 0 then do
      let (heap, option) := Slice.alloc heap (List.replicate 4 0)
      let heap ← FieldRef.update heap header (Field.setBits bit 1 1) (.part 0 1)
      pure (heap, option)
    else pure (heap, option)
  return (option.set heap (resize arg option.len), option)

def updateGRE (key seq : Slice) (payload : Nat) (id : FieldID) (op : UpdateOp)
    (arg : Bytes) : Outcome (Heap UInt8 × IPHeader Slice) := do
  if id.isUDF then .error "gre: Update failed, field is not supported"
  else if op ≠ .set then .error "gre: Update failed, operation is not supported"
  else if id.num = keyField then
    let (heap, key) ← updateOption heap header key 5 arg
    return (heap, .gre header key seq payload)
  else if id.num = sequenceField then
    let (heap, seq) ← updateOption heap header seq 4 arg
    return (heap, .gre header key seq payload)
  else .error "gre: Update failed, field is not supported"

def update (id : FieldID) (op : UpdateOp) (arg : Bytes) :
    IPHeader Slice → Outcome (Heap UInt8 × IPHeader Slice × Bool)
  | .ip4 header payload => do
    let (heap, dirty) ← updateIP4 heap header id op arg
    return (heap, .ip4 header payload, dirty)
  | .ip6 header payload => do
    let (heap, dirty) ← updateIP6 heap header id op arg
    return (heap, .ip6 header payload, dirty)
  | .gre header key seq payload => do
    let (heap, changed) ← updateGRE heap header key seq payload id op arg
    return (heap, changed, true)

end

-- The loop of `lookup`: the position of the header of the wanted instance, or else of the last one of
-- its kind.
def lookupLoop (greField : Bool) (wanted : UInt8) :
    List (IPHeader Slice) → Nat → UInt8 → Option Nat → Option Nat
  | [], _, _, found => found
  | header :: inner, pos, inst, found =>
    if greField = decide (header.id = .gre) then
      if inst = wanted then some pos
      else lookupLoop greField wanted inner (pos + 1) (inst + 1) (some pos)
    else lookupLoop greField wanted inner (pos + 1) inst found

def lookup (headers : List (IPHeader Slice)) (id : FieldID) : Option Nat :=
  lookupLoop (id.num = keyField || id.num = sequenceField) id.inst headers 0 0 none

end IPHeader

namespace Metadata

def attributeSizes : List (Int32 × Nat) :=
  [(attribute32Field, 4), (attribute24Field, 3), (attribute16Field, 2), (attribute8Field, 1)]

def plainFields : List Int32 :=
  [portInputField, portOutputField, nextHopIPField, nextHopGroupIDField, nextHopIDField,
    inputIfaceField, outputIfaceField, trapIDField, tunnelIDField, hostPortIDField]

def copyInto (dst src : Bytes) : Bytes :=
  src.take dst.length ++ dst.drop src.length

variable (md : Metadata)

def setField (num : Int32) (inst : UInt8) (value : Bytes) : Metadata :=
  { md with fields := fun n i => if n = num ∧ i = inst then some value else md.fields n i }

def field (id : FieldID) : Outcome Bytes :=
  if id.isUDF then .error "metadata: Field failed, unsupported field"
  else if id.num = lengthField then .ok (octetsOf 8 md.length)
  else if id.num = vrfField then
    .ok (copyInto (List.replicate 8 0) ((md.fields vrfField 0).getD []))
  else if id.num ∈ plainFields then .ok ((md.fields id.num 0).getD [])
  else
    match attributeSizes.lookup id.num with
    | some size => .ok ((md.fields id.num id.inst).getD (List.replicate size 0))
    | none => .error "metadata: Field failed, unsupported field"

def updateSet (id : FieldID) (arg : Bytes) : Outcome Metadata :=
  if id.num = vrfField then
    .ok (md.setField vrfField 0 (copyInto ((md.fields vrfField 0).getD []) arg))
  else if id.num ∈ plainFields then .ok (md.setField id.num 0 arg)
  else
    match attributeSizes.lookup id.num with
    | some size => .ok (md.setField id.num id.inst (copyInto (List.replicate size 0) arg))
    | none => .error "metadata: UpdateField failed, set unsupported for field"

def updateNumeric (field arg : Bytes) (length : Nat) (op : UpdateOp) : Outcome Bytes := do
  let field := if field.length = 0 then List.replicate length 0 else field
  let a := UInt64.ofNat (← Field.value arg)
  let n := UInt64.ofNat (← Field.value field)
  let n := if op = .dec then n - a else n + a
  return octetsOf field.length n.toNat

def updateIncDec (id : FieldID) (arg : Bytes) (op : UpdateOp) : Outcome Metadata :=
  if id.num = attribute32Field ∨ id.num = attribute16Field ∨ id.num = attribute8Field then do
    let size := (attributeSizes.lookup id.num).getD 0
    return md.setField id.num id.inst
      (← updateNumeric ((md.fields id.num id.inst).getD []) arg size op)
  else .error "metadata: UpdateField failed, unsupported inc/dec op for field"

def updateField (id : FieldID) (op : UpdateOp) (arg : Bytes) : Outcome Metadata :=
  if id.isUDF then .error "metadata: UpdateField failed, unsupported op for UDF"
  else
    match op with
    | .set => md.updateSet id arg
    | .inc | .dec => md.updateIncDec id arg op
    | .other _ => .error "metadata: UpdateField failed, unsupported op for field"

end Metadata

namespace Ethernet

variable (eth : Ethernet Slice)

def field (id : FieldID) : Option FieldRef :=
  if id.isUDF = false ∧ (id.num = vlanTagField ∨ id.num = vlanPriorityField) then
    let inst := if id.inst = lastField then UInt8.ofNat (eth.vlans.length + 255) else id.inst
    match eth.vlans[inst.toNat]? with
    | some tag => FieldRef.within eth.header tag 2
    | none => if id.num = vlanPriorityField then some (.copy [0, 0]) else none
  else
    FieldRef.find [(macSrcField, 6, 6), (macDstField, 0, 6), (etherTypeField, eth.next, 2)]
      eth.header id

def readField (heap : Heap UInt8) (id : FieldID) : Outcome Bytes :=
  match eth.field id with
  | none => .error "ethernet: Field failed, field does not exist"
  | some ref =>
    let field := ref.get heap eth.header
    if id.isUDF then .ok field
    else if id.num = vlanTagField then Field.bitField field 0 12
    else if id.num = vlanPriorityField then Field.bitField field 12 4
    else .ok field

def updateField (heap : Heap UInt8) (id : FieldID) (op : UpdateOp) (arg : Bytes) :
    Outcome (Heap UInt8) := do
  match eth.field id with
  | none => .error "ethernet: UpdateField failed, field does not exist"
  | some ref =>
    if op ≠ .set then .error "ethernet: UpdateField failed, unsupported op for field"
    else if id.isUDF then ref.update heap eth.header (Field.set arg)
    else if id.num = vlanTagField then
      let bits ← Field.bigEndian 2 arg
      ref.update heap eth.header (Field.setBits 0 12 bits)
    else if id.num = vlanPriorityField then
      let bits ← Field.bigEndian 2 arg
      ref.update heap eth.header (Field.setBits 12 4 bits)
    else ref.update heap eth.header (Field.set arg)

end Ethernet

namespace Handler

def tcpPlaces : List (Int32 × Nat × Nat) :=
  [(portSrcField, 0, 2), (portDstField, 2, 2), (tcpFlagsField, 12, 2)]

def udpPlaces : List (Int32 × Nat × Nat) :=
  [(portSrcField, 0, 2), (portDstField, 2, 2)]

def arpPlaces : List (Int32 × Nat × Nat) :=
  [(arpTPAField, 24, 4), (arpSPAField, 14, 4), (arpTMACField, 18, 6), (arpSMACField, 8, 6)]

def icmpPlaces : List (Int32 × Nat × Nat) :=
  [(icmpTypeField, 0, 1), (icmpCodeField, 1, 1)]

def icmp6Field (type : Nat) (options : NDOptions) (header : Slice) (id : FieldID) :
    Option FieldRef :=
  match FieldRef.find icmpPlaces header id with
  | some ref => some ref
  | none =>
    if id.num = ndTargetField then
      if type = 135 ∨ type = 136 ∨ type = 137 then FieldRef.within header 8 16 else none
    else if id.num = ndSLLField then options.sll.bind fun (off, n) => FieldRef.within header off n
    else if id.num = ndTLLField then options.tll.bind fun (off, n) => FieldRef.within header off n
    else none

section

variable (heap : Heap UInt8) (id : FieldID)

-- The handlers whose fields are plain parts of one header differ in where these are and in the name
-- they give in errors.
def plainField (name : String) (header : Slice) (ref : Option FieldRef) : Outcome Bytes :=
  match ref with
  | some ref => .ok (ref.get heap header)
  | none => .error (name ++ ": Field failed, field does not exist")

def field : Handler Slice → Outcome Bytes
  | .metadata md => md.field id
  | .ethernet eth => eth.readField heap id
  | .ip _ headers =>
    match (IPHeader.lookup headers id).bind (headers[·]?) with
    | some header => header.find heap id
    | none => .error "ip: Field failed, err ip: lookup failed, header for field does not exist"
  | .tcp header =>
    match FieldRef.find tcpPlaces header id with
    | none => .error "tcp: Field failed, field does not exist"
    | some ref =>
      if id.isUDF = false ∧ id.num = tcpFlagsField then Field.bitField (ref.get heap header) 0 9
      else .ok (ref.get heap header)
  | .udp header => plainField heap "udp" header (FieldRef.find udpPlaces header id)
  | .arp header => plainField heap "arp" header (FieldRef.find arpPlaces header id)
  | .icmp4 header => plainField heap "icmp4" header (FieldRef.find icmpPlaces header id)
  | .icmp6 type options header =>
    plainField heap "icmp6" header (icmp6Field type options header id)
  | .opaqueData header => plainField heap "opaque" header (FieldRef.find [] header id)

def plainUpdate (message : String) (header : Slice) (ref : Option FieldRef) (op : UpdateOp)
    (arg : Bytes) : Outcome (Heap UInt8) :=
  match ref, op with
  | some ref, .set => ref.update heap header (Field.set arg)
  | _, _ => .error message

def updateField (op : UpdateOp) (arg : Bytes) :
    Handler Slice → Outcome (Heap UInt8 × Handler Slice × Bool)
  | .metadata md => do return (heap, .metadata (← md.updateField id op arg), true)
  | .ethernet eth => do return (← eth.updateField heap id op arg, .ethernet eth, true)
  | .ip linked headers =>
    match IPHeader.lookup headers id with
    | none => .error "ip: UpdateField failed, err ip: lookup failed, header for field does not exist"
    | some pos =>
      match headers[pos]? with
      | none => .panic
      | some header => do
        let (heap, header, dirty) ← header.update heap id op arg
        return (heap, .ip linked (headers.set pos header), dirty)
  | .tcp header => do
    if op ≠ .set then .error "tcp: UpdateField failed, unsupported op for field"
    else
      match FieldRef.find tcpPlaces header id with
      | none => .error "tcp: UpdateField failed, field does not exist"
      | some ref =>
        if id.isUDF = false ∧ id.num = tcpFlagsField then
          let bits ← Field.bigEndian 2 arg
          return (← ref.update heap header (Field.setBits 0 9 bits), .tcp header, true)
        else return (← ref.update heap header (Field.set arg), .tcp header, true)
  | .udp header => do
    return (← plainUpdate heap "udp: UpdateField failed, unsupported op for field" header
      (FieldRef.find udpPlaces header id) op arg, .udp header, true)
  | .arp header => do
    return (← plainUpdate heap "arp: UpdateField failed, unsupported op for field" header
      (FieldRef.find arpPlaces header id) op arg, .arp header, true)
  | .icmp4 header => do
    return (← plainUpdate heap "icmp4: UpdateField failed, unsupported op for field" header
      (FieldRef.find icmpPlaces header id) op arg, .icmp4 header, true)
  | .icmp6 type options header => do
    return (← plainUpdate heap "icmp6: UpdateField failed, unsupported op for field" header
      (icmp6Field type options header id) op arg, .icmp6 type options header, true)
  | .opaqueData header => do
    return (← plainUpdate heap "opaque: UpdateField failed, field does not exist" header
      (FieldRef.find [] header id) op arg, .opaqueData header, true)

end

end Handler

end Lemming.Protocol
