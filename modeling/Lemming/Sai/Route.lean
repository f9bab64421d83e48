import Lemming.Forwarding.Server
import Lemming.Shared.Octets

set_option autoImplicit false

namespace Lemming.Sai

open Packet Shared Forwarding
open Lemming.Flow (PacketFieldMaskedBytes)

def FIBV4Table : String := "fib-v4"
def FIBV6Table : String := "fib-v6"
def NHGTable : String := "nhg-table"
def NHTable : String := "nh-table"
def trapTableID : String := "trap-table"

inductive ObjectType where
  | nextHop
  | nextHopGroup
  | routerInterface
  | port
  | other (name : String)
deriving DecidableEq, Repr

def ObjectType.text : ObjectType → String
  | .nextHop => "OBJECT_TYPE_NEXT_HOP"
  | .nextHopGroup => "OBJECT_TYPE_NEXT_HOP_GROUP"
  | .routerInterface => "OBJECT_TYPE_ROUTER_INTERFACE"
  | .port => "OBJECT_TYPE_PORT"
  | .other name => name

inductive PacketAction where
  | unspecified
  | drop
  | forward
  | copy
  | copyCancel
  | trap
  | log
  | deny
  | transit
  | donotdrop
deriving DecidableEq, Repr

structure IpPrefix where
  addr : Bytes
  mask : Bytes

structure RouteEntry where
  switchId : UInt64
  vrId : UInt64
  destination : IpPrefix

structure CreateRouteEntryRequest where
  entry : RouteEntry
  packetAction : PacketAction
  nextHopId : UInt64

structure RouteAttrs where
  getType : String → ObjectType
  cpuPort : UInt64 → Except String UInt64

def fieldOf (num : Int32) : PacketFieldId := { field := some { fieldNum := num, inst := 0 } }

def withBytes (field : Int32) (bytes mask : Bytes) : PacketFieldMaskedBytes where
  fieldId := fieldOf field
  bytes
  masks := mask

def withUint64 (field : Int32) (d : UInt64) : PacketFieldMaskedBytes :=
  withBytes field (octetsOf 8 d.toNat) (List.replicate 8 0xFF)

def setUint64 (field : Int32) (v : UInt64) : ActionDesc :=
  .updateAction .set (fieldOf field) (octetsOf 8 v.toNat) none 0 0

def copyField (field src : Int32) : ActionDesc :=
  .updateAction .copy (fieldOf field) [] (some (fieldOf src)) 0 0

namespace RouteEntry

def fib (entry : RouteEntry) : String :=
  if entry.destination.addr.length = 4 then FIBV4Table else FIBV6Table

def fibFields (entry : RouteEntry) : List PacketFieldMaskedBytes :=
  [withUint64 PacketFieldNum.packetVrf entry.vrId,
   withBytes PacketFieldNum.ipAddrDst entry.destination.addr entry.destination.mask]

def trapFlow (entry : RouteEntry) : Flow.FlowEntryDesc where
  bank := 0
  priority := 0
  fields :=
    [withBytes PacketFieldNum.ipAddrDst entry.destination.addr entry.destination.mask,
     withUint64 PacketFieldNum.packetVrf entry.vrId]
  qualifiers := []

end RouteEntry

def PacketAction.forwards : PacketAction → Bool
  | .drop | .trap | .deny => false
  | _ => true

namespace CreateRouteEntryRequest

inductive Target where
  | fib (actions : List ActionDesc)
  | trap (actions : List ActionDesc)

def target (attrs : RouteAttrs) (req : CreateRouteEntryRequest) : Except String Target :=
  -- If the packet action is drop, then next hop is optional.
  if req.packetAction.forwards then
    match attrs.getType (toString req.nextHopId) with
    | .nextHop => .ok (.fib [setUint64 PacketFieldNum.nextHopId req.nextHopId, .lookupAction NHTable])
    | .nextHopGroup =>
      .ok (.fib [setUint64 PacketFieldNum.nextHopGroupId req.nextHopId, .lookupAction NHGTable])
    | .routerInterface =>
      .ok (.fib [copyField PacketFieldNum.nextHopIp PacketFieldNum.ipAddrDst,
        setUint64 PacketFieldNum.outputIface req.nextHopId])
    | .port =>
      match attrs.cpuPort req.entry.switchId with
      | .error err => .error err
      | .ok cpuPort =>
        if req.nextHopId = cpuPort then
          .ok (.trap [.transmitAction (toString req.nextHopId) true])
        else
          .ok (.fib [copyField PacketFieldNum.nextHopIp PacketFieldNum.ipAddrDst,
            .transmitAction (toString req.nextHopId) false])
    | .other name => .error ("unknown next hop type: " ++ name)
  else .ok (.fib [.dropAction])

end CreateRouteEntryRequest

section Routes

variable (env : Env) (call : Call)

def createRouteEntry (attrs : RouteAttrs) (c : Context) (req : CreateRouteEntryRequest) :
    Outcome (Context × Option String) :=
  match req.target attrs with
  | .error err => .ok (c, some err)
  | .ok (.trap actions) => do
    let (c, err) ← c.tableEntryAdd env call trapTableID [(.flowEntry req.entry.trapFlow, actions)]
    return (c, err.map fun _ => "failed to add next IP2ME route: " ++ ObjectType.port.text)
  | .ok (.fib actions) =>
    c.tableEntryAdd env call req.entry.fib [(.prefixEntry req.entry.fibFields, actions)]

def removeRouteEntry (c : Context) (entry : RouteEntry) : Outcome (Context × Option String) :=
  c.tableEntryRemove env entry.fib (.prefixEntry entry.fibFields)

end Routes

end Lemming.Sai
