import Lemming.Packet.Field
import Lemming.Shared.Outcome
import Lemming.Shared.Heap

set_option autoImplicit false

namespace Lemming.Protocol

open Shared Lemming.Packet

section

section

inductive HeaderId where
  | unspecified
  | none
  | metadata
  | ethernet
  | ethernetVlan
  | ethernet1Q
  | ip4
  | ip6
  | gre
  | tcp
  | udp
  | arp
  | icmp4
  | opaqueData
  | icmp6
  | tunnel6to4Auto
  | tunnel6to4Secure
  | ip
  | count
  | unnamed (code : Int32)
deriving DecidableEq, Repr

def HeaderId.string : HeaderId → String
  | .unspecified => "PACKET_HEADER_ID_UNSPECIFIED"
  | .none => "PACKET_HEADER_ID_NONE"
  | .metadata => "PACKET_HEADER_ID_METADATA"
  | .ethernet => "PACKET_HEADER_ID_ETHERNET"
  | .ethernetVlan => "PACKET_HEADER_ID_ETHERNET_VLAN"
  | .ethernet1Q => "PACKET_HEADER_ID_ETHERNET_1Q"
  | .ip4 => "PACKET_HEADER_ID_IP4"
  | .ip6 => "PACKET_HEADER_ID_IP6"
  | .gre => "PACKET_HEADER_ID_GRE"
  | .tcp => "PACKET_HEADER_ID_TCP"
  | .udp => "PACKET_HEADER_ID_UDP"
  | .arp => "PACKET_HEADER_ID_ARP"
  | .icmp4 => "PACKET_HEADER_ID_ICMP4"
  | .opaqueData => "PACKET_HEADER_ID_OPAQUE"
  | .icmp6 => "PACKET_HEADER_ID_ICMP6"
  | .tunnel6to4Auto => "PACKET_HEADER_ID_TUNNEL_6TO4_AUTO"
  | .tunnel6to4Secure => "PACKET_HEADER_ID_TUNNEL_6TO4_SECURE"
  | .ip => "PACKET_HEADER_ID_IP"
  | .count => "PACKET_HEADER_ID_COUNT"
  | .unnamed code => toString code

inductive HeaderGroup where
  | unspecified
  | packet
  | l2
  | l3
  | l4
  | payload
deriving DecidableEq, Repr

def HeaderId.group : HeaderId → HeaderGroup
  | .metadata => .packet
  | .ethernet | .ethernetVlan | .ethernet1Q => .l2
  | .ip4 | .ip | .tunnel6to4Auto | .tunnel6to4Secure | .ip6 | .gre => .l3
  | .tcp | .udp => .l4
  | .icmp4 | .icmp6 | .arp | .opaqueData => .payload
  | _ => .unspecified

def HeaderGroup.position : HeaderGroup → Nat
  | .packet => 0
  | .l2 => 1
  | .l3 => 2
  | .l4 => 3
  | .payload => 4
  -- Not a group of the table.
  | .unspecified => 5

-- A nil field and an empty one are both `[]`: the code never asks for a field of no bytes.
namespace Field

def Numeric (field : Bytes) : Prop :=
  field.length = 1 ∨ field.length = 2 ∨ field.length = 4 ∨ field.length = 8

instance (field : Bytes) : Decidable (Numeric field) :=
  inferInstanceAs (Decidable (_ ∨ _))

def value (field : Bytes) : Outcome Nat :=
  if Numeric field then .ok (octetsValue field) else .panic

def bitField (field : Bytes) (bitpos bitcount : Nat) : Outcome Bytes :=
  if bitpos + bitcount ≠ 0 ∧ field.length * 8 ≤ bitpos + bitcount - 1 then .panic
  else if Numeric field then
    .ok (octetsOf field.length (octetsValue field / 2 ^ bitpos % 2 ^ bitcount))
  else .panic

end Field

namespace Header

def field (header : Bytes) (off n : Nat) : Bytes :=
  if header.length < off + n then [] else slice header off n

end Header

-- A frame is the list of its unread bytes.
namespace Frame

def peek (frame : Bytes) (off n : Nat) : Outcome Bytes :=
  if frame.length < off + n then
    .error s!"protocol: Peek failed, cannot read {n} bytes at offset {off} in frame of length {frame.length}"
  else .ok (slice frame off n)

def readHeader (frame : Bytes) (n : Nat) : Outcome (Bytes × Bytes) :=
  if frame.length < n then
    .error s!"protocol: ReadHeader failed, want {n} bytes, got {frame.length} bytes"
  else .ok (frame.take n, frame.drop n)

end Frame

theorem value_ok {field : Bytes} (numeric : Field.Numeric field) :
    Field.value field = .ok (octetsValue field) := by
  rw [Field.value, if_pos numeric]

variable {header : Bytes}

theorem field_inside {off n : Nat} (fits : off + n ≤ header.length) :
    Header.field header off n = slice header off n := by
  rw [Header.field, if_neg (by omega)]

theorem field_outside {off n : Nat} (short : header.length < off + n) :
    Header.field header off n = [] := by
  rw [Header.field, if_pos short]

theorem value_field {off n : Nat} (fits : off + n ≤ header.length)
    (numeric : n = 1 ∨ n = 2 ∨ n = 4 ∨ n = 8) :
    Field.value (Header.field header off n) = .ok (octetsValue (slice header off n)) := by
  rw [field_inside fits, value_ok]
  rw [Field.Numeric, slice_length fits]
  exact numeric

theorem bitField_value {field : Bytes} (numeric : Field.Numeric field) (bitpos bitcount : Nat)
    (inside : bitpos + bitcount ≤ field.length * 8) (positive : 0 < bitcount) :
    ∃ bits, Field.bitField field bitpos bitcount = .ok bits ∧
      Field.value bits = .ok (octetsValue field / 2 ^ bitpos % 2 ^ bitcount) := by
  have small : octetsValue field / 2 ^ bitpos % 2 ^ bitcount < 256 ^ field.length :=
    calc octetsValue field / 2 ^ bitpos % 2 ^ bitcount
      _ ≤ octetsValue field / 2 ^ bitpos := Nat.mod_le _ _
      _ ≤ octetsValue field := Nat.div_le_self _ _
      _ < 256 ^ field.length := octetsValue_lt field
  refine ⟨_, by rw [Field.bitField, if_neg (by omega), if_pos numeric], ?_⟩
  rw [value_ok, octetsValue_octetsOf, Nat.mod_eq_of_lt small]
  rw [Field.Numeric, octetsOf_length]
  exact numeric

theorem peek_ok {frame : Bytes} {off n : Nat} (fits : off + n ≤ frame.length) :
    Frame.peek frame off n = .ok (slice frame off n) := by
  rw [Frame.peek, if_neg (by omega)]

end

-- Headers are read from a frame as bytes and kept as slices of it, so the types below leave open
-- what stands for the bytes of a header.
variable {S : Type}

structure EthernetTags where
  next : Nat
  vlans : List Nat
  id : HeaderId

structure Ethernet (S : Type) extends EthernetTags where
  header : S

-- One header of the L3 group. A GRE key or sequence number of no bytes is a nil one.
inductive IPHeader (S : Type) where
  | ip4 (header : S) (payload : Nat)
  | ip6 (header : S) (payload : Nat)
  | gre (header key seq : S) (payload : Nat)

def IPHeader.id : IPHeader S → HeaderId
  | .ip4 .. => .ip4
  | .ip6 .. => .ip6
  | .gre .. => .gre

structure NDOptions where
  sll : Option (Nat × Nat) := none
  tll : Option (Nat × Nat) := none

-- The length is kept apart from the fields that can be set, which are named by their number and
-- instance and may be nil.
structure Metadata where
  length : Nat
  fields : Int32 → UInt8 → Option Bytes

inductive Handler (S : Type) where
  | metadata (md : Metadata)
  | ethernet (eth : Ethernet S)
  -- `linked` tells if the handler was given its descriptor.
  | ip (linked : Bool) (headers : List (IPHeader S))
  | tcp (header : S)
  | udp (header : S)
  | arp (header : S)
  | icmp4 (header : S)
  | icmp6 (type : Nat) (options : NDOptions) (header : S)
  | opaqueData (header : S)

structure Desc (S : Type) where
  group : HeaderGroup
  handler : Handler S
  dirty : Bool

-- A packet. Its descriptors stand in the order of the linked list, the array of the frame comes first
-- on the heap.
structure Packet where
  start : HeaderId
  heap : Heap UInt8
  headers : List (Desc Slice)

def headerNext : List (HeaderId × Nat) :=
  [(.ip4, 0x0800), (.ip6, 0x86DD), (.arp, 0x0806)]

-- The two reverse tables are computed by the packages' init functions.
def nextHeader : List (Nat × HeaderId) :=
  headerNext.map Prod.swap

def headerProto : List (HeaderId × Nat) :=
  [(.ip4, 4), (.ip6, 41), (.gre, 47), (.tcp, 6), (.udp, 17), (.icmp4, 1), (.icmp6, 58),
    (.opaqueData, 255)]

def protoHeader : List (Nat × HeaderId) :=
  headerProto.map Prod.swap

def newEthernet (next : Nat) : EthernetTags × Nat :=
  if next = 0x8100 then ({ next := 16, vlans := [14], id := .ethernetVlan }, 18)
  else if next = 0x9100 then ({ next := 20, vlans := [14, 18], id := .ethernet1Q }, 22)
  else ({ next := 12, vlans := [], id := .ethernet }, 14)

def Handler.group : Handler S → HeaderGroup
  | .metadata _ => .packet
  | .ethernet _ => .l2
  | .ip .. => .l3
  | .tcp _ | .udp _ => .l4
  | .arp _ | .icmp4 _ | .icmp6 .. | .opaqueData _ => .payload

section Shape

-- The number of bytes of a header.
variable (size : S → Nat)

def IPHeader.Shaped : IPHeader S → Prop
  | .ip4 header _ => 12 ≤ size header ∧ 2 ∣ size header
  | .ip6 header _ => size header = 40
  | .gre header key seq _ =>
    size header = 4 ∧ (size key = 0 ∨ size key = 4) ∧ (size seq = 0 ∨ size seq = 4)

def Handler.Shaped : Handler S → Prop
  | .metadata _ => True
  | .ethernet eth => ∃ type, newEthernet type = (eth.toEthernetTags, size eth.header)
  | .ip linked headers => linked = true ∧ headers ≠ [] ∧ ∀ header ∈ headers, header.Shaped size
  | .tcp header => 20 ≤ size header
  | .udp header => 8 ≤ size header
  | .arp header => size header = 28
  | .icmp4 header => 8 ≤ size header
  | .icmp6 _ _ header => 8 ≤ size header
  | .opaqueData _ => True

end Shape

def Desc.Ordered : Nat → List (Desc S) → Prop
  | _, [] => True
  | low, desc :: below => low ≤ desc.group.position ∧ Ordered (desc.group.position + 1) below

theorem Desc.Ordered.mono {low low' : Nat} {descs : List (Desc S)} (ordered : Ordered low descs)
    (le : low' ≤ low) : Ordered low' descs := by
  cases descs with
  | nil => trivial
  | cons desc below => exact ⟨le.trans ordered.1, ordered.2⟩

section Bytes

def IPHeader.bytes : IPHeader Bytes → Bytes
  | .ip4 header _ => header
  | .ip6 header _ => header
  | .gre header key seq _ => header ++ key ++ seq

def Handler.bytes : Handler Bytes → Bytes
  | .metadata _ => []
  | .ethernet eth => eth.header
  | .ip _ headers => headers.flatMap IPHeader.bytes
  | .tcp header => header
  | .udp header => header
  | .arp header => header
  | .icmp4 header => header
  | .icmp6 _ _ header => header
  | .opaqueData header => header

-- The frame hands out its headers one after the other: a header that was read starts where the
-- one before it ends.
def IPHeader.place (off : Nat) : IPHeader Bytes → IPHeader Slice
  | .ip4 header payload => .ip4 ⟨0, off, header.length⟩ payload
  | .ip6 header payload => .ip6 ⟨0, off, header.length⟩ payload
  | .gre header key seq payload =>
    .gre ⟨0, off, header.length⟩ ⟨0, off + header.length, key.length⟩
      ⟨0, off + header.length + key.length, seq.length⟩ payload

def IPHeader.placeAll : Nat → List (IPHeader Bytes) → List (IPHeader Slice)
  | _, [] => []
  | off, header :: inner => header.place off :: placeAll (off + header.bytes.length) inner

def Handler.place (off : Nat) : Handler Bytes → Handler Slice
  | .metadata md => .metadata md
  | .ethernet eth => .ethernet { eth with header := ⟨0, off, eth.header.length⟩ }
  | .ip linked headers => .ip linked (IPHeader.placeAll off headers)
  | .tcp header => .tcp ⟨0, off, header.length⟩
  | .udp header => .udp ⟨0, off, header.length⟩
  | .arp header => .arp ⟨0, off, header.length⟩
  | .icmp4 header => .icmp4 ⟨0, off, header.length⟩
  | .icmp6 type options header => .icmp6 type options ⟨0, off, header.length⟩
  | .opaqueData header => .opaqueData ⟨0, off, header.length⟩

def Desc.placeAll : Nat → List (Desc Bytes) → List (Desc Slice)
  | _, [] => []
  | off, desc :: below =>
    { desc with handler := desc.handler.place off } ::
      placeAll (off + desc.handler.bytes.length) below

end Bytes

end

abbrev Parsed (α : Type) := α × HeaderId × Bytes

section Ethernet

def parseEthernet (frame : Bytes) : Outcome (Parsed (Handler Bytes)) := do
  let next ← (Frame.peek frame 12 2).wrap "ethernet: parse failed, err "
  let (eth, length) := newEthernet (← Field.value next)
  let (header, frame) ← (Frame.readHeader frame length).wrap "ethernet: parse failed, err "
  let next ← Field.value (Header.field header eth.next 2)
  return (.ethernet { eth with header }, (nextHeader.lookup next).getD .opaqueData, frame)

end Ethernet

section IP

def makeIP4 (frame : Bytes) : Outcome (Parsed (IPHeader Bytes)) := do
  let desc ← (Frame.peek frame 0 1).wrap "ip4: makeIP4 failed, err "
  let size ← Field.bitField desc 0 4
  let (header, frame) ← (Frame.readHeader frame ((← Field.value size) * 4)).wrap
    "ip4: makeIP4 failed, err "
  let proto ← Field.value (Header.field header 9 1)
  return (.ip4 header frame.length, (protoHeader.lookup proto).getD .opaqueData, frame)

def makeIP6 (frame : Bytes) : Outcome (Parsed (IPHeader Bytes)) := do
  let (header, frame) ← (Frame.readHeader frame 40).wrap "ip6: makeIP6 failed, err "
  let proto ← Field.value (Header.field header 6 1)
  return (.ip6 header frame.length, (protoHeader.lookup proto).getD .opaqueData, frame)

def optional (frame : Bytes) (size : Nat) (present : Bool) (name : String) :
    Outcome (Bytes × Bytes) := do
  if !present then return ([], frame)
  let (header, frame) ← (Frame.readHeader frame size).wrap
    s!"gre: makeGRE failed to read {name}, err "
  return (Header.field header 0 size, frame)

def makeGRE (frame : Bytes) : Outcome (Parsed (IPHeader Bytes)) := do
  let desc ← (Frame.peek frame 0 1).wrap "gre: makeGRE failed, err "
  let keyPresent := (← Field.value (← Field.bitField desc 5 1)) == 1
  let seqPresent := (← Field.value (← Field.bitField desc 4 1)) == 1
  let (header, frame) ← (Frame.readHeader frame 4).wrap
    "gre: makeGRE failed to read header, err "
  let (key, frame) ← optional frame 4 keyPresent "key"
  let (seq, frame) ← optional frame 4 seqPresent "sequence"
  let next ← Field.value (Header.field header 2 2)
  return (.gre header key seq frame.length, (nextHeader.lookup next).getD .opaqueData, frame)

def makeHeader : HeaderId → Option (Bytes → Outcome (Parsed (IPHeader Bytes)))
  | .gre => some makeGRE
  | .ip4 => some makeIP4
  | .ip6 => some makeIP6
  | _ => none

def parseTunnel : Nat → HeaderId → Bytes → Outcome (Parsed (List (IPHeader Bytes)))
  | fuel, next, frame =>
    if frame.length = 0 then .ok ([], .none, frame)
    else
      match fuel with
      | 0 => .diverge
      | fuel + 1 =>
        match makeHeader next with
        | none => .ok ([], next, frame)
        | some make => do
          let (header, next, frame) ← make frame
          let (headers, next, frame) ← parseTunnel fuel next frame
          return (header :: headers, next, frame)

def parseL3 (fuel : Nat) (made : Outcome (Parsed (IPHeader Bytes))) : Outcome (Parsed (Handler Bytes)) := do
  let (header, next, frame) ← made
  let (headers, next, frame) ← parseTunnel fuel next frame
  return (.ip true (header :: headers), next, frame)

def parseIP6 (fuel : Nat) (frame : Bytes) : Outcome (Parsed (Handler Bytes)) :=
  parseL3 fuel (makeIP6 frame)

def parseIP4 (fuel : Nat) (frame : Bytes) : Outcome (Parsed (Handler Bytes)) :=
  parseL3 fuel (makeIP4 frame)

def parseIP (fuel : Nat) (frame : Bytes) : Outcome (Parsed (Handler Bytes)) := do
  let vb ← (Frame.peek frame 0 1).wrap "ip: parseIP failed, err "
  let version ← Field.value (← Field.bitField (Header.field vb 0 1) 4 4)
  if version = 4 then parseIP4 fuel frame
  else if version = 6 then parseIP6 fuel frame
  -- The version is printed in hexadecimal, as the one byte it is.
  else .error ("ip: parseIP failed, unknown version 0" ++ String.ofList (Nat.toDigits 16 version))

end IP

section Payload

variable (frame : Bytes)

def parseTCP : Outcome (Parsed (Handler Bytes)) := do
  let attr ← (Frame.peek frame 12 2).wrap "tcp: parsing failed: "
  let size := 4 * (← Field.value (← Field.bitField attr 12 4))
  if size < 20 then .error s!"tcp: parse failed, data-offset has small size {size}"
  else
    let (header, frame) ← (Frame.readHeader frame size).wrap "tcp: unable read header: "
    return (.tcp header, .opaqueData, frame)

def parseUDP : Outcome (Parsed (Handler Bytes)) := do
  if frame.length < 8 then
    .error s!"udp: parse failed, frame length {frame.length} too small to contain a UDP header"
  else
    let (header, frame) ← (Frame.readHeader frame frame.length).wrap "udp: unable read header: "
    return (.udp header, .opaqueData, frame)

def parseARP : Outcome (Parsed (Handler Bytes)) := do
  if frame.length < 28 then
    .error s!"arp: parse failed, invalid frame length {frame.length}, expected < 28 bytes"
  else
    let (header, frame) ← (Frame.readHeader frame 28).wrap "arp: parse failed, err "
    return (.arp header, .none, frame)

def parseICMP4 : Outcome (Parsed (Handler Bytes)) := do
  if frame.length < 8 then
    .error s!"icmp: parse failed, invalid frame length {frame.length}, expected size is greater than 8 bytes"
  else
    let (header, frame) ← (Frame.readHeader frame frame.length).wrap "icmp: parse failed, err "
    return (.icmp4 header, .none, frame)

def optionOffset : List (Nat × Nat) :=
  [(133, 8), (134, 16), (135, 24), (136, 24), (137, 40)]

def optionLoop (header : Bytes) : Nat → Nat → NDOptions → Outcome NDOptions
  | 0, _, _ => .diverge
  | fuel + 1, offset, options =>
    let f := Header.field header offset 1
    if f = [] then .ok options
    else do
      let id ← Field.value f
      let f := Header.field header (1 + offset) 1
      if f = [] then .error s!"Unable to read length for option {id}"
      else
        let length := 8 * (← Field.value f)
        if length < 2 then .error s!"Incorrect length {length} for option {id}"
        else
          let value := (2 + offset, length - 2)
          let options :=
            if id = 1 then { options with sll := some value }
            else if id = 2 then { options with tll := some value }
            else options
          optionLoop header fuel (offset + length) options

def parseOptions (fuel id : Nat) (header : Bytes) : Outcome NDOptions :=
  match optionOffset.lookup id with
  | none => .ok {}
  | some offset => optionLoop header fuel offset {}

def parseICMP6 (fuel : Nat) (frame : Bytes) : Outcome (Parsed (Handler Bytes)) := do
  if frame.length < 8 then
    .error s!"icmp6: parse failed, invalid frame length {frame.length}, expected size is greater than 8 bytes"
  else
    let (header, frame) ← (Frame.readHeader frame frame.length).wrap "icmp6: parse failed, err "
    let id ← Field.value (Header.field header 0 1)
    let options ← (parseOptions fuel id header).wrap "icmp6: parse failed, err "
    return (.icmp6 id options header, .none, frame)

def parseOpaque : Outcome (Parsed (Handler Bytes)) := do
  let (header, frame) ← (Frame.readHeader frame frame.length).wrap "opaque: parse failed, err "
  return (.opaqueData header, .none, frame)

end Payload

-- The numbers of the fields of metadata.
def portInputField : Int32 := 14
def portOutputField : Int32 := 15
def lengthField : Int32 := 16
def vrfField : Int32 := 25
def attribute32Field : Int32 := 34
def attribute24Field : Int32 := 50
def attribute16Field : Int32 := 46
def attribute8Field : Int32 := 49
def nextHopIPField : Int32 := 56
def nextHopGroupIDField : Int32 := 57
def nextHopIDField : Int32 := 58
def trapIDField : Int32 := 59
def inputIfaceField : Int32 := 60
def outputIfaceField : Int32 := 61
def tunnelIDField : Int32 := 62
def hostPortIDField : Int32 := 63

def initialFields : List (Int32 × Nat) :=
  [(vrfField, 8), (portInputField, 8), (portOutputField, 8), (nextHopIPField, 16),
    (inputIfaceField, 8), (outputIfaceField, 8), (tunnelIDField, 8), (hostPortIDField, 8)]

def newMetadata (length : Nat) : Metadata where
  length
  fields := fun num inst =>
    if inst = 0 then (initialFields.lookup num).map (List.replicate · 0) else none

def parseMetadata (frame : Bytes) : Outcome (Parsed (Handler Bytes)) :=
  .ok (.metadata (newMetadata frame.length), .none, frame)

def registered (fuel : Nat) : HeaderId → Option (Bytes → Outcome (Parsed (Handler Bytes)))
  | .metadata => some parseMetadata
  | .ethernet | .ethernetVlan | .ethernet1Q => some parseEthernet
  | .ip4 => some (parseIP4 fuel)
  | .ip6 => some (parseIP6 fuel)
  | .ip => some (parseIP fuel)
  | .tcp => some parseTCP
  | .udp => some parseUDP
  | .arp => some parseARP
  | .icmp4 => some parseICMP4
  | .icmp6 => some (parseICMP6 fuel)
  | .opaqueData => some parseOpaque
  | _ => none

-- The loop of `NewPacket`. `limit` bounds the loops inside the parse functions, the other number the
-- passes of this one.
def parseLoop (limit : Nat) (start : HeaderId) : Nat → HeaderId → Bytes → Outcome (List (Desc Bytes))
  | fuel, currID, frame =>
    if currID = .none then .ok []
    else
      match fuel with
      | 0 => .diverge
      | fuel + 1 =>
        match registered limit currID with
        | none => .error ("Parse failed for packet, bad Header " ++ currID.string)
        | some parse => do
          let (handler, nextID, frame) ← (parse frame).wrap "Parse failed for packet, err "
          -- Metadata is followed by the header the caller asks for.
          let nextID := if currID = .metadata then start else nextID
          let rest ← parseLoop limit start fuel nextID frame
          return { group := currID.group, handler, dirty := false } :: rest

def newPacket (fuel : Nat) (start : HeaderId) (frame spare : Bytes) : Outcome Packet := do
  let headers ← parseLoop fuel start fuel .metadata frame
  return { start, heap := [frame ++ spare], headers := Desc.placeAll 0 headers }

end Lemming.Protocol
