import Lemming.Shared.Outcome

set_option autoImplicit false

namespace Lemming.Sai

open Shared

structure FlowCounter where
  octets : UInt64
  packets : UInt64

inductive ForwardingObject where
  | flowCounter (octets packets : Option UInt64)
  | other

def ForwardingObject.query : ForwardingObject → Option FlowCounter
  | .flowCounter (some octets) (some packets) => some ⟨octets, packets⟩
  | _ => none

abbrev Objects := String → Option ForwardingObject

def Objects.counter (objects : Objects) (id : String) : Option FlowCounter :=
  (objects id).bind ForwardingObject.query

-- An id with no flow counter is skipped.
def flowCounterQuery (context : Except String Objects) (ids : List String) :
    Outcome (List FlowCounter) :=
  match context with
  | .error err => .error ("fwd: FlowCounterQuery failed, err " ++ err)
  | .ok objects => .ok (ids.filterMap objects.counter)

def counterAt {α : Type} (counters : List FlowCounter) (i : Nat) (part : FlowCounter → α) : Outcome α :=
  match counters[i]? with
  | none => .panic
  | some counter => .ok (part counter)

def ifaceCounterID (oid : UInt64) (input : Bool) : String :=
  if input then toString oid.toNat ++ "-in-counter" else toString oid.toNat ++ "-out-counter"

inductive RouterInterfaceStat where
  | inOctets
  | inPackets
  | outOctets
  | outPackets
  | other (number : Nat)

def statValue (counters : List FlowCounter) : RouterInterfaceStat → Outcome UInt64
  | .inOctets => counterAt counters 0 (·.octets)
  | .inPackets => counterAt counters 0 (·.packets)
  | .outOctets => counterAt counters 1 (·.octets)
  | .outPackets => counterAt counters 1 (·.packets)
  | .other _ => .ok 0

def getRouterInterfaceStats (context : Except String Objects) (oid : UInt64)
    (stats : List RouterInterfaceStat) : Outcome (List UInt64) := do
  let counters ← flowCounterQuery context [ifaceCounterID oid true, ifaceCounterID oid false]
  stats.mapM (statValue counters)

inductive AclCounterAttr where
  | packets
  | bytes
  | other (number : Nat)

def AclCounterAttr.fetches : AclCounterAttr → Bool
  | .packets => true
  | .bytes => true
  | .other _ => false

-- No attributes are returned when none of the two statistics is asked for.
def getAclCounterAttribute (context : Except String Objects) (oid : UInt64)
    (attrs : List AclCounterAttr) : Outcome (Option FlowCounter) :=
  if attrs.any AclCounterAttr.fetches then do
    let counters ← flowCounterQuery context [toString oid.toNat]
    counterAt counters 0 some
  else .ok none

def RouterInterfaceStat.source (oid : UInt64) :
    RouterInterfaceStat → Option (String × (FlowCounter → UInt64))
  | .inOctets => some (ifaceCounterID oid true, (·.octets))
  | .inPackets => some (ifaceCounterID oid true, (·.packets))
  | .outOctets => some (ifaceCounterID oid false, (·.octets))
  | .outPackets => some (ifaceCounterID oid false, (·.packets))
  | .other _ => none

def RouterInterfaceStat.Reads (objects : Objects) (oid : UInt64) (stat : RouterInterfaceStat)
    (value : UInt64) : Prop :=
  ∀ source ∈ stat.source oid, (objects.counter source.1).map source.2 = some value

-- The reply starts with the counter of the input side. Without it the other one is not in its place.
def RouterInterfaceStat.Counted (objects : Objects) (oid : UInt64) (stat : RouterInterfaceStat) : Prop :=
  ∀ source ∈ stat.source oid, (objects.counter (ifaceCounterID oid true)).isSome = true ∧
    (objects.counter source.1).isSome = true

variable (objects : Objects) (oid : UInt64)

theorem statValue_reads_iff (stat : RouterInterfaceStat) :
    (statValue ([ifaceCounterID oid true, ifaceCounterID oid false].filterMap objects.counter)
      stat).Yields (stat.Reads objects oid) ↔ stat.Counted objects oid := by
  cases isIn : objects.counter (ifaceCounterID oid true) <;>
    cases isOut : objects.counter (ifaceCounterID oid false) <;> cases stat <;>
    simp [statValue, counterAt, Outcome.Yields, RouterInterfaceStat.Reads,
      RouterInterfaceStat.Counted, RouterInterfaceStat.source, isIn, isOut]

theorem counters_aligned_iff (stats : List RouterInterfaceStat) (attrs : List AclCounterAttr) :
    ((getRouterInterfaceStats (.ok objects) oid stats).Yields
        (List.Forall₂ (RouterInterfaceStat.Reads objects oid) stats) ↔
      ∀ stat ∈ stats, stat.Counted objects oid) ∧
    ((getAclCounterAttribute (.ok objects) oid attrs).Yields
        (fun attr => ∀ counter ∈ attr, objects.counter (toString oid.toNat) = some counter) ↔
      (attrs.any AclCounterAttr.fetches = true →
        (objects.counter (toString oid.toNat)).isSome = true)) := by
  constructor
  · rw [getRouterInterfaceStats, flowCounterQuery, Outcome.ok_bind, Outcome.yields_mapM]
    exact forall₂_congr fun stat _ => statValue_reads_iff objects oid stat
  · rw [getAclCounterAttribute]
    split
    · cases isCounter : objects.counter (toString oid.toNat) <;>
        simp_all [flowCounterQuery, counterAt, Outcome.Yields]
    · next none => simp [none, Outcome.Yields]

-- An object with no counters and one that has only the counter of the output side.
theorem counters_misaligned :
    getRouterInterfaceStats (.ok fun _ => none) 1 [.inOctets] = .panic ∧
      getAclCounterAttribute (.ok fun _ => none) 1 [.packets] = .panic ∧
      getRouterInterfaceStats (.ok fun id =>
        if id = "1-out-counter" then some (.flowCounter (some 8) (some 2)) else none) 1 [.inOctets] =
        .ok [8] := by
  decide

end Lemming.Sai
