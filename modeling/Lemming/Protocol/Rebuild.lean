import Lemming.Protocol.Fields

set_option autoImplicit false

namespace Lemming.Protocol

open Shared Lemming.Packet

namespace Csum16

def accumulate : Bytes → UInt32 → UInt32
  | [], sum => sum
  | [high], sum => sum + (high.toUInt32 <<< 8)
  | high :: low :: rest, sum => accumulate rest (sum + (high.toUInt32 <<< 8) + low.toUInt32)

-- The folding loop. A pass that is not the last makes the sum smaller, so the sum itself bounds their
-- number.
def fold : Nat → UInt32 → UInt32
  | 0, sum => sum
  | fuel + 1, sum =>
    if sum &&& 0xffff0000 = 0 then sum
    else fold fuel ((sum &&& (0xffff : UInt32)) + (sum >>> (16 : UInt32)))

def write (sum : UInt16) (bytes : Bytes) : UInt16 :=
  let sum := accumulate bytes (sum ^^^ 0xffff).toUInt32
  (fold sum.toNat sum ^^^ 0xffff).toUInt16

end Csum16

variable (heap : Heap UInt8)

namespace IPHeader

-- The slice `Header` returns. The key and the sequence number of a GRE header are appended to it, which
-- writes into the array behind the header where there is room.
def header : IPHeader Slice → Heap UInt8 × Slice
  | .ip4 header _ => (heap, header)
  | .ip6 header _ => (heap, header)
  | .gre header key seq _ =>
    let (heap, b) := header.append heap (key.get heap)
    b.append heap (seq.get heap)

def headerAll (heap : Heap UInt8) : List (IPHeader Slice) → Heap UInt8 × List Slice
  | [] => (heap, [])
  | header :: inner =>
    let (heap, b) := header.header heap
    let (heap, bs) := headerAll heap inner
    (heap, b :: bs)

def payload : IPHeader Slice → HeaderId × Nat
  | .ip4 header length => (.ip4, header.len + length)
  | .ip6 header length => (.ip6, header.len + length)
  | .gre header key seq length => (.gre, header.len + key.len + seq.len + length)

def setPayload (id : HeaderId) (length : Nat) :
    IPHeader Slice → Outcome (Heap UInt8 × IPHeader Slice)
  | .ip4 header _ => do
    let proto := (headerProto.lookup id).getD 255
    let heap ← Header.setValue heap header 9 1 proto
    let heap ← Header.setValue heap header 2 2 (length + header.len)
    let heap ← Header.setValue heap header 10 2 0
    let heap ← Header.setValue heap header 10 2 (Csum16.write 0 (header.get heap)).toNat
    return (heap, .ip4 header length)
  | .ip6 header _ => do
    let proto := (headerProto.lookup id).getD 255
    let heap ← Header.setValue heap header 6 1 proto
    let heap ← Header.setValue heap header 4 2 length
    return (heap, .ip6 header length)
  | .gre header key seq _ => do
    let next := (headerNext.lookup id).getD 0xFFFF
    let heap ← Header.setValue heap header 2 2 next
    return (heap, .gre header key seq length)

def rebuildAll (id : HeaderId) (length : Nat) :
    List (IPHeader Slice) → Outcome (Heap UInt8 × List (IPHeader Slice) × HeaderId × Nat)
  | [] => .ok (heap, [], id, length)
  | header :: inner => do
    let (heap, inner, id, length) ← rebuildAll id length inner
    let (heap, header) ← header.setPayload heap id length
    return (heap, header :: inner, header.payload)

end IPHeader

namespace Handler

def header : Handler Slice → Heap UInt8 × Bytes
  | .metadata _ => (heap, [])
  | .ethernet eth => (heap, eth.header.get heap)
  | .ip _ headers =>
    let (heap, bs) := IPHeader.headerAll heap headers
    (heap, bs.flatMap (Slice.get heap))
  | .tcp header => (heap, header.get heap)
  | .udp header => (heap, header.get heap)
  | .arp header => (heap, header.get heap)
  | .icmp4 header => (heap, header.get heap)
  | .icmp6 _ _ header => (heap, header.get heap)
  | .opaqueData header => (heap, header.get heap)

def trailer (_ : Handler Slice) : Bytes := []

def id (handler : Handler Slice) (inst : UInt8) : Outcome HeaderId :=
  match handler with
  | .metadata _ => .ok .metadata
  | .ethernet eth => .ok eth.id
  | .ip _ headers =>
    if inst = lastField then
      match headers.getLast? with
      | some header => .ok header.id
      | none => .panic
    else .ok ((headers[inst.toNat]?.map IPHeader.id).getD .none)
  | .tcp _ => .ok .tcp
  | .udp _ => .ok .udp
  | .arp _ => .ok .arp
  | .icmp4 _ => .ok .icmp4
  | .icmp6 .. => .ok .icmp6
  | .opaqueData _ => .ok .opaqueData

end Handler

namespace Desc

def payloadLength (heap : Heap UInt8) : List (Desc Slice) → Heap UInt8 × Nat
  | [] => (heap, 0)
  | desc :: below =>
    let (heap, b) := desc.handler.header heap
    let (heap, l) := payloadLength heap below
    (heap, b.length + desc.handler.trailer.length + l)

def payloadID : List (Desc Slice) → Outcome HeaderId
  | [] => .ok .none
  | next :: _ => next.handler.id firstField

-- The descriptors before this one are listed from the nearest on.
def envelopeID : List (Desc Slice) → Outcome HeaderId
  | [] => .ok .none
  | prev :: _ => prev.handler.id lastField

def cleanEnvelope : List (Desc Slice) → Bool
  | [] => false
  | prev :: _ => !prev.dirty

def cleanPayload : List (Desc Slice) → Bool
  | [] => false
  | next :: _ => !next.dirty

def l3Field (above below : List (Desc Slice)) (num : Int32) : Outcome Bytes :=
  match (above ++ below).find? fun desc => desc.group = .l3 with
  | some desc => desc.handler.field heap { num, inst := lastField }
  | none => .error "Field failed for packet, Header does not exist"

def truncate (field : Bytes) (size : Nat) : Bytes :=
  if field.length < size then field else resize field size

end Desc

namespace Handler

open Desc

def checksumIPv4 (header payload ipSrc ipDst : Bytes) : UInt16 :=
  [truncate ipSrc 4, truncate ipDst 4, [0, 6], octetsOf 2 (header.length + payload.length), header,
    payload].foldl Csum16.write 0

def checksumIPv6 (header payload ipSrc ipDst : Bytes) : UInt16 :=
  [truncate ipSrc 16, truncate ipDst 16, [0, 0, 0, 6], octetsOf 4 (header.length + payload.length),
    header, payload].foldl Csum16.write 0

section Rebuild

-- What `Desc.Payload` does with the descriptors below one.
variable (payload : Heap UInt8 → List (Desc Slice) → List (Desc Slice) →
  Outcome (Heap UInt8 × Bytes × List (Desc Slice)))
variable (above below : List (Desc Slice)) (dirty : Bool)

def rebuildEthernet (eth : Ethernet Slice) : Outcome (Heap UInt8) := do
  match headerNext.lookup (← payloadID below) with
  | none => return heap
  | some next => Header.setValue heap eth.header eth.next 2 next

-- An error leaves the checksum zeroed; the callers of `Rebuild` drop it.
def rebuildTCP (self : Desc Slice) (header : Slice) :
    Outcome (Heap UInt8 × List (Desc Slice)) := do
  let envelope ← envelopeID above
  if envelope ≠ .ip4 ∧ envelope ≠ .ip6 then return (heap, below)
  if cleanEnvelope above && cleanPayload below && !dirty then return (heap, below)
  let heap ← Header.setValue heap header 16 2 0
  match l3Field heap above below srcField with
  | .error _ => return (heap, below)
  | src =>
    let ipSrc ← src
    match l3Field heap above below dstField with
    | .error _ => return (heap, below)
    | dst =>
      let ipDst ← dst
      let (heap, bytes, below) ← payload heap (self :: above) below
      let sum :=
        if envelope = .ip4 then checksumIPv4 (header.get heap) bytes ipSrc ipDst
        else checksumIPv6 (header.get heap) bytes ipSrc ipDst
      return (← Header.setValue heap header 16 2 sum.toNat, below)

def rebuildUDP (header : Slice) : Outcome (Heap UInt8) := do
  if cleanEnvelope above && cleanPayload below && !dirty then return heap
  let (heap, l) := payloadLength heap below
  let length := header.len + l
  let heap ← Header.setValue heap header 4 2 length
  let heap ← Header.setValue heap header 6 2 0
  if (← envelopeID above) ≠ .ip6 then return heap
  match l3Field heap above below srcField with
  | .error _ => return heap
  | src =>
    let ipSrc ← src
    match l3Field heap above below dstField with
    | .error _ => return heap
    | dst =>
      let ipDst ← dst
      let sum := [header.get heap, ipSrc, ipDst, octetsOf 4 length, [0, 0, 0, 17]].foldl
        Csum16.write 0
      Header.setValue heap header 6 2 sum.toNat

def rebuildICMP4 (header : Slice) : Outcome (Heap UInt8) := do
  if !dirty then return heap
  let heap ← Header.setValue heap header 2 2 0
  Header.setValue heap header 2 2 (Csum16.write 0 (header.get heap)).toNat

def rebuildICMP6 (header : Slice) : Outcome (Heap UInt8) := do
  if cleanEnvelope above && !dirty then return heap
  let heap ← Header.setValue heap header 2 2 0
  match l3Field heap above below srcField with
  | .error _ => return heap
  | src =>
    let ipSrc ← src
    match l3Field heap above below dstField with
    | .error _ => return heap
    | dst =>
      let ipDst ← dst
      let sum := [ipSrc, ipDst, octetsOf 4 header.len, [0, 0, 0, 58], header.get heap].foldl
        Csum16.write 0
      Header.setValue heap header 2 2 sum.toNat

def rebuild (self : Desc Slice) : Outcome (Heap UInt8 × Handler Slice × List (Desc Slice)) :=
  match self.handler with
  | .metadata md =>
    let (heap, length) := payloadLength heap below
    .ok (heap, .metadata { md with length }, below)
  | .ethernet eth => do return (← rebuildEthernet heap below eth, .ethernet eth, below)
  | .ip linked headers => do
    -- A handler that `add` made has a nil descriptor.
    if !linked then .panic
    else
      let (heap, length) := payloadLength heap below
      let id ← payloadID below
      let (heap, headers, _) ← IPHeader.rebuildAll heap id length headers
      return (heap, .ip linked headers, below)
  | .tcp header => do
    let (heap, below) ← rebuildTCP heap payload above below self.dirty self header
    return (heap, .tcp header, below)
  | .udp header => do return (← rebuildUDP heap above below self.dirty header, .udp header, below)
  | .icmp4 header => do return (← rebuildICMP4 heap self.dirty header, .icmp4 header, below)
  | .icmp6 type options header => do
    return (← rebuildICMP6 heap above below self.dirty header, .icmp6 type options header, below)
  | .arp header => .ok (heap, .arp header, below)
  | .opaqueData header => .ok (heap, .opaqueData header, below)

end Rebuild

end Handler

namespace Desc

def clean (desc : Desc Slice) : Desc Slice := { desc with dirty := false }

def joinPayload (headers : List Bytes) : Bytes :=
  headers.foldr (fun header payload => header ++ payload) []

-- The first loop of `Payload`: each handler is rebuilt, then its header is copied. The number bounds
-- how many descriptors are left.
def rebuildLoop : Nat → Heap UInt8 → List (Desc Slice) → List (Desc Slice) →
    Outcome (Heap UInt8 × List Bytes × List (Desc Slice))
  | _, heap, _, [] => .ok (heap, [], [])
  | 0, _, _, _ :: _ => .diverge
  | n + 1, heap, above, desc :: below => do
    let payload (heap : Heap UInt8) (above below : List (Desc Slice)) :
        Outcome (Heap UInt8 × Bytes × List (Desc Slice)) := do
      let (heap, headers, descs) ← rebuildLoop n heap above below
      return (heap, joinPayload headers, descs.map clean)
    let (heap, handler, below) ← Handler.rebuild heap payload above below desc
    let desc := { desc with handler }
    let (heap, header) := handler.header heap
    let (heap, headers, below) ← rebuildLoop n heap (desc :: above) below
    return (heap, header :: headers, desc :: below)

def payload (heap : Heap UInt8) (above below : List (Desc Slice)) :
    Outcome (Heap UInt8 × Bytes × List (Desc Slice)) := do
  let (heap, headers, descs) ← rebuildLoop below.length heap above below
  return (heap, joinPayload headers, descs.map clean)

end Desc

def Packet.frame (packet : Packet) : Outcome (Bytes × Packet) :=
  match packet.headers with
  | [] => .ok ([], packet)
  | first :: below => do
    let (heap, bytes, descs) ← Desc.payload packet.heap [first] below
    return (bytes, { packet with heap, headers := first :: descs })

end Lemming.Protocol
