import Lemming.Protocol.Rebuild

set_option autoImplicit false

namespace Lemming.Protocol

open Shared Lemming.Packet

def sequence : List HeaderGroup := [.packet, .l2, .l3, .l4, .payload]

def groupNumbers : List (Int32 × HeaderGroup) :=
  [(2, .packet), (3, .l2), (4, .l3), (5, .l4), (6, .payload)]

def fieldGroups : List (HeaderGroup × List Int32) :=
  [(.packet, [portInputField, portOutputField, lengthField, vrfField, attribute32Field,
      attribute24Field, attribute16Field, attribute8Field, nextHopIPField, nextHopGroupIDField,
      nextHopIDField, trapIDField, inputIfaceField, outputIfaceField, tunnelIDField,
      hostPortIDField]),
    (.l2, [macSrcField, macDstField, etherTypeField, vlanTagField, vlanPriorityField]),
    (.l3, [versionField, srcField, dstField, hopField, protoField, qosField, flowField, keyField,
      sequenceField]),
    (.l4, [portSrcField, portDstField, tcpFlagsField]),
    (.payload, [icmpTypeField, icmpCodeField, ndTargetField, ndTLLField, ndSLLField, arpTPAField,
      arpSPAField, arpTMACField, arpSMACField])]

def fieldGroup (num : Int32) : Option HeaderGroup :=
  (fieldGroups.find? fun entry => num ∈ entry.2).map Prod.fst

def slot (group : HeaderGroup) :
    List (Desc Slice) → List (Desc Slice) →
      Option (List (Desc Slice) × Desc Slice × List (Desc Slice))
  | _, [] => none
  | above, desc :: below =>
    if desc.group = group then some (above, desc, below) else slot group (desc :: above) below

namespace Packet

variable (packet : Packet)

-- The loop of `fieldDesc` over the groups that may hold a user-defined field. The length of a header is
-- cut to eight bits.
def udfLoop (headers : List (Desc Slice)) :
    Heap UInt8 → List HeaderGroup → UInt8 → Heap UInt8 × Option (HeaderGroup × UInt8)
  | heap, [], _ => (heap, none)
  | heap, group :: groups, offset =>
    match slot group [] headers with
    | none => udfLoop headers heap groups offset
    | some (_, desc, _) =>
      let (heap, header) := desc.handler.header heap
      let bl := UInt8.ofNat header.length
      if offset < bl then (heap, some (group, offset))
      else udfLoop headers heap groups (offset - bl)

def fieldDesc (id : FieldID) : Outcome (Heap UInt8 × Option HeaderGroup × FieldID) :=
  if id.isUDF then
    match groupNumbers.lookup id.header with
    | none => .panic
    | some group =>
      match udfLoop packet.headers packet.heap (sequence.drop group.position) id.offset with
      | (heap, some (found, offset)) => .ok (heap, some found, { id with offset })
      | (heap, none) => .ok (heap, none, id)
  else
    match fieldGroup id.num with
    | none => .panic
    | some group => .ok (packet.heap, some group, id)

def field (id : FieldID) : Outcome (Bytes × Packet) := do
  let (heap, group, id) ← packet.fieldDesc id
  match group.bind fun group => slot group [] packet.headers with
  | none => .error "Field failed for packet, Header does not exist"
  | some (_, desc, _) =>
    let field ← (desc.handler.field heap id).wrap "Field failed for packet, err "
    return (field, { packet with heap })

def length : Outcome Nat :=
  match packet.field { num := lengthField } with
  | .ok (field, _) => Field.bigEndian 8 field
  | .error _ => .ok 0
  | .panic => .panic
  | .diverge => .diverge

def update (id : FieldID) (op : UpdateOp) (arg : Bytes) : Outcome Packet := do
  let (heap, group, id) ← packet.fieldDesc id
  match group.bind fun group => slot group [] packet.headers with
  | none => .error "Update operation failed for packet, Header does not exist"
  | some (above, desc, below) =>
    let (heap, handler, dirty) ← (desc.handler.updateField heap id op arg).wrap
      "Update operation failed for packet, err "
    let desc := { desc with handler, dirty := dirty || desc.dirty }
    return { packet with heap, headers := above.reverse ++ desc :: below }

end Packet

section Ethernet

variable (heap : Heap UInt8)

def Ethernet.ethertype (eth : Ethernet Slice) : Outcome Nat :=
  Field.value (Header.field (eth.header.get heap) eth.next 2)

-- The last part of `Remove` for a tag: the header is cut to the length its ethertype asks for, or
-- stretched to it.
def Ethernet.retag (next : Nat) (eth : Ethernet Slice) : Outcome (Heap UInt8 × Ethernet Slice) :=
  let (tags, length) := newEthernet next
  match eth.header.reslice heap length with
  | none => .panic
  | some header => do return (← Header.setValue heap header tags.next 2 next, { tags with header })

def Ethernet.remove (id : HeaderId) (eth : Ethernet Slice) :
    Outcome (Heap UInt8 × Ethernet Slice) := do
  match id with
  | .ethernetVlan | .ethernet1Q =>
    if eth.id ≠ id then
      .error ("ethernet: Remove failed, cannot remove header " ++ id.string ++ " from header " ++
        eth.id.string)
    else eth.retag heap (← eth.ethertype heap)
  | .ethernet =>
    if eth.header.len = 0 then
      .error ("ethernet: Remove failed, cannot remove " ++ id.string ++ " from non-ethernet frame")
    else return (heap, { eth with header := .nil, vlans := [], id := .none })
  | _ => .error ("ethernet: Remove failed, unsupported header " ++ id.string)

def blankEthernet (id : HeaderId) : Option (Outcome (Heap UInt8 × Ethernet Slice)) :=
  match id with
  | .ethernet => some do
    let (tags, length) := newEthernet 0xFFFF
    let (heap, header) := Slice.alloc heap (List.replicate length 0)
    return (heap, { tags with header })
  | .ethernetVlan => some do
    let (tags, length) := newEthernet 0x8100
    let (heap, header) := Slice.alloc heap (List.replicate length 0)
    let heap ← Header.setValue heap header 12 2 0x8100
    return (heap, { tags with header })
  | .ethernet1Q => some do
    let (tags, length) := newEthernet 0x9100
    let (heap, header) := Slice.alloc heap (List.replicate length 0)
    let heap ← Header.setValue heap header 12 2 0x9100
    let heap ← Header.setValue heap header 16 2 0x8100
    return (heap, { tags with header })
  | _ => none

def Ethernet.modify (id : HeaderId) (eth : Ethernet Slice) :
    Outcome (Heap UInt8 × Ethernet Slice) := do
  if eth.id ≠ .ethernet then
    .error ("ethernet: Modify failed, cannot add header " ++ id.string ++ " to header " ++
      eth.id.string)
  else
    let next ← eth.ethertype heap
    let src := Header.field (eth.header.get heap) 6 6
    let dst := Header.field (eth.header.get heap) 0 6
    match if id = .ethernet then none else blankEthernet heap id with
    | none =>
      .error ("ethernet: Modify failed, cannot add header " ++ id.string ++ " to header " ++
        eth.id.string)
    | some blank =>
      let (heap, tagged) ← blank
      let heap ← Header.setValue heap tagged.header tagged.next 2 next
      let heap ← FieldRef.update heap tagged.header (Field.set src) (.part 6 6)
      let heap ← FieldRef.update heap tagged.header (Field.set dst) (.part 0 6)
      return (heap, tagged)

end Ethernet

section IP

variable (heap : Heap UInt8)

def newIP4 : Outcome (Heap UInt8 × IPHeader Slice) := do
  let (heap, header) := Slice.alloc heap (List.replicate 20 0)
  return (← Header.setValue heap header 0 1 0x45, .ip4 header 0)

def newIP6 : Outcome (Heap UInt8 × IPHeader Slice) := do
  let (heap, header) := Slice.alloc heap (List.replicate 40 0)
  return (← FieldRef.update heap header (Field.setBits 28 4 0x6) (.part 0 4), .ip6 header 0)

def newGRE : Outcome (Heap UInt8 × IPHeader Slice) := do
  let (heap, header) := Slice.alloc heap (List.replicate 4 0)
  return (heap, .gre header .nil .nil 0)

def check6to4Address (inner outer : IPHeader Slice) (num : Int32) : Outcome Unit := do
  let innerIP ← inner.find heap { num }
  if innerIP.length ≠ 16 then .error s!"address has incorrect size {innerIP.length}"
  else
    let outerIP ← outer.find heap { num }
    if outerIP.length ≠ 4 then .error s!"address has incorrect size {outerIP.length}"
    else if outerIP ≠ slice innerIP 2 4 then
      .error "inner IP6 address does not contain the outer IP4 address"
    else if [0x20, 0x02] ≠ innerIP.take 2 then
      .error "inner IP6 address does not contain the 6to4 prefix"
    else return ()

def check6to4Tunnel (id : HeaderId) (inner outer : IPHeader Slice) : Outcome Unit := do
  if inner.id ≠ .ip6 then
    .error ("ip4: Incorrect 6to4 tunnel, inner header " ++ inner.id.string ++ " is not IP6")
  else if outer.id ≠ .ip4 then
    .error ("ip4: Incorrect 6to4 tunnel, outer header " ++ outer.id.string ++ " is not IP4")
  else
    (check6to4Address heap inner outer dstField).wrap
      "ip4: Incorrect 6to4 tunnel, bad dst address, err "
    if id = .tunnel6to4Secure then
      (check6to4Address heap inner outer srcField).wrap
        "ip4: Incorrect 6to4 tunnel, bad src address, err "

-- The local function of `new6to4Tunnel`: the address inside a 6to4 address becomes the outer one. An
-- error of the update is dropped.
def set6to4Address (inner outer : IPHeader Slice) (num : Int32) :
    Outcome (Heap UInt8 × IPHeader Slice) := do
  let a ← inner.find heap { num }
  if a.length ≠ 16 then
    .error s!"ip4: Unable to add 6to4 tunnel, address has incorrect size {a.length}"
  else
    match outer.update heap { num } .set (slice a 2 4) with
    | .error _ => return (heap, outer)
    | updated => do
      let (heap, outer, _) ← updated
      return (heap, outer)

def new6to4Tunnel (id : HeaderId) (inner : IPHeader Slice) :
    Outcome (Heap UInt8 × IPHeader Slice) := do
  if inner.id ≠ .ip6 then
    .error ("ip4: Unable to add 6to4 tunnel for " ++ inner.id.string ++ " as payload")
  else
    let text := "ip4: Unable to add 6to4 tunnel " ++ id.string ++ ", "
    let (heap, outer) ← newIP4 heap
    match id with
    | .tunnel6to4Auto => (set6to4Address heap inner outer dstField).wrap text
    | .tunnel6to4Secure =>
      let (heap, outer) ← (set6to4Address heap inner outer dstField).wrap text
      (set6to4Address heap inner outer srcField).wrap text
    | _ => .error (text ++ "unknown type")

def IPHeader.remove (id : HeaderId) (headers : List (IPHeader Slice)) :
    Outcome (List (IPHeader Slice)) := do
  match id, headers with
  | .tunnel6to4Auto, outer :: inner :: rest | .tunnel6to4Secure, outer :: inner :: rest =>
    (check6to4Tunnel heap id inner outer).wrap ("ip: Remove header " ++ id.string ++ " failed, err ")
    return inner :: rest
  | .tunnel6to4Auto, _ | .tunnel6to4Secure, _ =>
    .error s!"ip: Remove header {id.string} failed, insufficient header length {headers.length}"
  | _, [] => .panic
  | _, outer :: rest =>
    if outer.id ≠ id then
      .error ("ip: Remove header " ++ id.string ++ " failed, outermost header is " ++
        outer.id.string)
    else return rest

def IPHeader.modify (id : HeaderId) (headers : List (IPHeader Slice)) :
    Outcome (Heap UInt8 × List (IPHeader Slice)) := do
  let (heap, outer) ←
    match id, headers with
    | .gre, [] => .panic
    | .gre, outermost :: _ =>
      if outermost.id = .gre then
        .error "ip: Modify header failed, GRE cannot encapsulate a GRE header"
      else newGRE heap
    | .ip4, _ => newIP4 heap
    | .ip6, _ => newIP6 heap
    | .tunnel6to4Auto, [] | .tunnel6to4Secure, [] =>
      .error ("ip: Modify header failed for header " ++ id.string ++ ", no ip headers")
    | .tunnel6to4Auto, inner :: _ | .tunnel6to4Secure, inner :: _ => new6to4Tunnel heap id inner
    | _, _ => .error ("ip: Modify header failed for header " ++ id.string)
  return (heap, outer :: headers)

end IP

namespace Handler

variable (heap : Heap UInt8)

def remove (id : HeaderId) : Handler Slice → Outcome (Heap UInt8 × Handler Slice)
  | .metadata _ => .error "metadata: Remove is unsupported"
  | .ethernet eth => do
    let (heap, eth) ← eth.remove heap id
    return (heap, .ethernet eth)
  | .ip linked headers => do return (heap, .ip linked (← IPHeader.remove heap id headers))
  | .tcp _ =>
    if id ≠ .tcp then
      .error ("tcp: Remove header " ++ id.string ++ " failed, outermost header is " ++
        HeaderId.tcp.string)
    else .ok (heap, .tcp .nil)
  | .udp _ =>
    if id ≠ .udp then
      .error ("udp: Remove header " ++ id.string ++ " failed, outermost header is " ++
        HeaderId.udp.string)
    else .ok (heap, .udp .nil)
  | .arp _ => .error "arp: Remove is unsupported"
  | .icmp4 _ | .icmp6 .. => .error "icmp: Remove is unsupported"
  | .opaqueData _ => .error "opaque: Remove is unsupported"

def modify (id : HeaderId) : Handler Slice → Outcome (Heap UInt8 × Handler Slice)
  | .metadata _ => .error "metadata: Modify is unsupported"
  | .ethernet eth => do
    let (heap, eth) ← eth.modify heap id
    return (heap, .ethernet eth)
  | .ip linked headers => do
    let (heap, headers) ← IPHeader.modify heap id headers
    return (heap, .ip linked headers)
  | .tcp _ => .error "tcp: Modify failed, unsupported operation"
  | .udp _ => .error "udp: Modify is unsupported"
  | .arp _ => .error "arp: Modify is unsupported"
  | .icmp4 _ | .icmp6 .. => .error "icmp: Modify failed, unsupported operation"
  | .opaqueData _ => .error "opaque: Modify is unsupported"

def add : HeaderId → Option (Outcome (Heap UInt8 × Handler Slice))
  | .ip4 => some do
    let (heap, header) ← newIP4 heap
    return (heap, .ip false [header])
  | .ip6 => some do
    let (heap, header) ← newIP6 heap
    return (heap, .ip false [header])
  | .udp => some do
    let (heap, header) := Slice.alloc heap (List.replicate 8 0)
    return (heap, .udp header)
  | id =>
    (blankEthernet heap id).map fun blank => do
      let (heap, eth) ← blank
      return (heap, .ethernet eth)

end Handler

namespace Packet

def rebuildHeaders (heap : Heap UInt8) :
    List (Desc Slice) → List (Desc Slice) → Outcome (Heap UInt8 × List (Desc Slice))
  | [], below => .ok (heap, below)
  | desc :: above, below => do
    let (heap, handler, below) ← Handler.rebuild heap Desc.payload above below desc
    rebuildHeaders heap above ({ desc with handler } :: below)

variable (packet : Packet)

def groupBefore (group : HeaderGroup) : Option HeaderGroup :=
  (sequence.take group.position).reverse.find? fun g => (slot g [] packet.headers).isSome

def decap (id : HeaderId) : Outcome Packet := do
  if id.group = .unspecified then
    .error ("Decap " ++ id.string ++ " failed for packet, unknown header")
  else
    match slot id.group [] packet.headers with
    | none => .error ("Decap " ++ id.string ++ " failed for packet, non existing header")
    | some (above, desc, below) =>
      let (heap, handler) ← (desc.handler.remove packet.heap id).wrap
        ("Decap " ++ id.string ++ " failed for packet, err ")
      let (heap, header) := handler.header heap
      -- A header that is now empty leaves the chain.
      let below := if header.length = 0 then below else { desc with handler, dirty := true } :: below
      let (heap, headers) ← rebuildHeaders heap above below
      return { packet with heap, headers }

def encap (id : HeaderId) : Outcome Packet := do
  if id.group = .unspecified then
    .error ("Encap header " ++ id.string ++ " failed for packet, unknown header")
  else
    match slot id.group [] packet.headers with
    | some (above, desc, below) =>
      let (heap, handler) ← (desc.handler.modify packet.heap id).wrap
        ("Encap header " ++ id.string ++ " failed for packet, err ")
      let (heap, headers) ← rebuildHeaders heap above ({ desc with handler, dirty := true } :: below)
      return { packet with heap, headers }
    | none =>
      match Handler.add packet.heap id with
      | none => .error ("Encap header " ++ id.string ++ " failed for packet, cannot add header")
      | some added =>
        match (packet.groupBefore id.group).bind fun group => slot group [] packet.headers with
        | none => .error ("Encap " ++ id.string ++ " failed for packet, malformed packet")
        | some (above, prev, below) =>
          let (heap, handler) ← added.wrap ("Encap " ++ id.string ++ " failed for packet, err ")
          let desc := { group := id.group, handler, dirty := true }
          let (heap, headers) ← rebuildHeaders heap (desc :: prev :: above) below
          return { packet with heap, headers }

end Packet

end Lemming.Protocol
