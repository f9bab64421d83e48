import Lemming.Sysrib.Selection

set_option autoImplicit false

namespace Lemming.Sysrib

open Lemming.Shared

structure RouteKey where
  pfx : IPNet
  niName : String
deriving DecidableEq

structure ResolvedRoute extends RouteKey where
  nexthops : Finset ResolvedNexthop
deriving DecidableEq

namespace Dpb

structure OCInterface where
  interface : String
  subinterface : UInt32
deriving DecidableEq

structure GUE where
  srcIp : List UInt8
  dstIp : List UInt8
  isV6 : Bool
  dstPort : UInt32
deriving DecidableEq

structure NextHop where
  interface : OCInterface
  nextHopIp : String
  gue : Option GUE
deriving DecidableEq

-- The hops are in the order of a map. A set of one interface stands for that interface.
inductive Hop where
  | interface (ports : Finset OCInterface)
  | nextHops (hops : List (NextHop × UInt64))

structure Route where
  key : RouteKey
  hop : Hop

def Route.hopAt (request : Route) (i : Nat) : Option (NextHop × UInt64) :=
  match request.hop with
  | .interface _ => none
  | .nextHops hops => hops[i]?

end Dpb

def ocInterface (port : Interface) : Dpb.OCInterface :=
  ⟨port.name, port.subinterface⟩

-- The addresses are slices of arrays inside the variable of the `range`. There is one variable for the
-- whole loop, so that after it they show the arrays of the last nexthop.
def requestHop (pfx : IPNet) (last nh : ResolvedNexthop) : Dpb.NextHop where
  interface := ocInterface nh.port
  nextHopIp := nh.address
  gue :=
    if nh.hasGUE then
      some {
        srcIp := if nh.gueHeaders.isV6 then last.gueHeaders.srcIP6.toList else last.gueHeaders.srcIP4.toList
        dstIp := if nh.gueHeaders.isV6 then last.gueHeaders.dstIP6.toList else last.gueHeaders.dstIP4.toList
        isV6 := nh.gueHeaders.isV6
        dstPort :=
          if pfx.family = .v4 then nh.gueHeaders.dstPortv4.toUInt32
          else nh.gueHeaders.dstPortv6.toUInt32 }
    else none

structure NexthopOrder (nexthops : Finset ResolvedNexthop) where
  hops : List ResolvedNexthop
  nodup : hops.Nodup
  toFinset : hops.toFinset = nexthops

def resolvedRouteToRouteRequest (r : ResolvedRoute) (order : NexthopOrder r.nexthops) : Dpb.Route where
  key := r.toRouteKey
  hop :=
    if r.nexthops.card = 1 ∧ ∃ nh ∈ r.nexthops, nh.address = "" then
      .interface (r.nexthops.image fun nh => ocInterface nh.port)
    else
      .nextHops (order.hops.map fun nh => (requestHop r.pfx (order.hops.getLastD nh) nh, nh.weight))

def policyGUE (pfx : IPNet) (nhop : Address) (policy : GUEPolicy) : Dpb.GUE where
  srcIp := match nhop with
    | .v4 _ => policy.srcIP4.toList
    | .v6 _ => policy.srcIP6.toList
  dstIp := match nhop with
    | .v4 octets => octets.toList
    | .v6 octets => octets.toList
  isV6 := nhop.family = .v6
  dstPort := if pfx.family = .v4 then policy.dstPortv4.toUInt32 else policy.dstPortv6.toUInt32

def PolicyFits (pfx : IPNet) (nhop : Address) (policy : GUEPolicy) : Prop :=
  match nhop with
  | .v6 _ => pfx.family = .v4 → policy.dstPortv4 = 0
  | .v4 octets =>
    ¬ ((if pfx.family = .v4 then policy.dstPortv4 else policy.dstPortv6) = 0 ∧
      policy.srcIP4 = Vector.replicate 4 0 ∧ octets = Vector.replicate 4 0)

-- A nexthop with the addresses of another one, in the family of that one.
def Shares (nhop : Address) (policy : GUEPolicy) (other : ResolvedNexthop) : Prop :=
  match nhop with
  | .v4 octets => other.gueHeaders.srcIP4 = policy.srcIP4 ∧ other.gueHeaders.dstIP4 = octets
  | .v6 octets => other.gueHeaders.srcIP6 = policy.srcIP6 ∧ other.gueHeaders.dstIP6 = octets

theorem zero_eq_toUInt32 (port : UInt16) : 0 = port.toUInt32 ↔ port = 0 := by
  rw [eq_comm, ← UInt32.toNat_inj, ← UInt16.toNat_inj]
  simp

section Headers

variable {T : Type → Type} [PrefixTree T] {sr : SysRIB T} {ip : IPNet} {cr : Route} {policy : GUEPolicy}

theorem requestHop_gue_iff {nhop : Address} (ebgp : cr.routePref.adminDistance = 20)
    (matched : sr.guePolicyFor nhop = some policy) (last inner : ResolvedNexthop) :
    (requestHop ip last { inner with gueHeaders := sr.encapHeaders ip cr nhop }).gue =
        some (policyGUE ip nhop policy) ↔
      PolicyFits ip nhop policy ∧ Shares nhop policy last := by
  cases nhop with
  | v4 octets =>
    cases family : ip.family <;>
      simp [requestHop, ResolvedNexthop.hasGUE, SysRIB.encapHeaders, ebgp, SysRIB.getGUEHeader, matched,
        policyGUE, family, Address.family, PolicyFits, Shares, Vector.toList_inj] <;>
      tauto
  | v6 octets =>
    cases family : ip.family <;>
      simp [requestHop, ResolvedNexthop.hasGUE, SysRIB.encapHeaders, ebgp, SysRIB.getGUEHeader, matched,
        policyGUE, family, Address.family, PolicyFits, Shares, zero_eq_toUInt32, Vector.toList_inj]
    tauto

end Headers

namespace NexthopOrder

variable {nhs : Finset ResolvedNexthop} {rnh other : ResolvedNexthop}

theorem mem_iff (order : NexthopOrder nhs) : rnh ∈ order.hops ↔ rnh ∈ nhs := by
  rw [← List.mem_toFinset, order.toFinset]

theorem exists_last (member : other ∈ nhs) :
    ∃ order : NexthopOrder nhs, ∀ nh, order.hops.getLastD nh = other := by
  refine ⟨⟨(nhs.erase other).toList ++ [other], ?_, ?_⟩, fun nh => by simp⟩
  · exact List.nodup_append_comm.mp (List.nodup_cons.mpr ⟨by simp, (nhs.erase other).nodup_toList⟩)
  · ext nh
    by_cases same : nh = other <;> simp [same, member]

theorem getLastD_mem (order : NexthopOrder nhs) (member : rnh ∈ nhs) :
    order.hops.getLastD rnh ∈ nhs := by
  rw [← order.mem_iff] at member ⊢
  cases last : order.hops.getLast? with
  | none => rwa [List.getLastD_eq_getLast?, last]
  | some nh =>
    rw [List.getLastD_eq_getLast?, last]
    exact List.mem_of_getLast? last

end NexthopOrder

namespace SysRIB

open PrefixTree

section Requests

variable {T : Type → Type} [PrefixTree T] (texts : Texts) (sr : SysRIB T) (interfaces : InterfaceStates)

def Stems (ni : String) (ip : IPNet) (pref : RoutePreference) (rnh : ResolvedNexthop)
    (nhop : Address) : Prop :=
  ∃ rib, sr.ni.lookup (sr.inputNI ni) = some rib ∧
    ∃ cr ∈ findDeepestTags rib.tree ip, cr.connected = none ∧ cr.routePref = pref ∧
      ∃ nh ∈ cr.nextHops, texts.address nh.address = some nhop ∧
        ∃ nhs inner, sr.Resolves texts interfaces nh.networkInstance nhop.toIPNet nhs ∧
          inner ∈ nhs ∧ rnh = { inner with gueHeaders := sr.encapHeaders ip cr nhop }

-- All that a packet for the prefix goes out through: nexthops of routes, and connected interfaces.
def Egress (ni : String) (ip : IPNet) (pref : RoutePreference) (rnh : ResolvedNexthop) : Prop :=
  (∃ nhop, sr.Stems texts interfaces ni ip pref rnh nhop) ∨
    ∃ rib, sr.ni.lookup (sr.inputNI ni) = some rib ∧
      ∃ cr ∈ findDeepestTags rib.tree ip, cr.routePref = pref ∧
        ∃ port, cr.connected = some port ∧ interfaces port = true ∧
          rnh = connectedNexthop texts (sr.inputNI ni) ip port

variable {texts sr interfaces} {order : Shuffle RoutePreference} {depth : Nat} {ni : String}
  {ip : IPNet} {nhs : Finset ResolvedNexthop}

theorem Resolves.address_ne (resolves : sr.Resolves texts interfaces ni ip nhs)
    (host : ip.isHost = true) : ∀ rnh ∈ nhs, rnh.address ≠ "" := by
  induction resolves with
  | @best ni ip rib nhs resolved named inner isBest ih =>
    rcases isBest with ⟨pref, members, -⟩ | ⟨rfl, -⟩
    · intro rnh member
      obtain ⟨cr, best, -, brings⟩ := (members rnh).mp member
      rcases brings with ⟨port, -, -, rfl⟩ | ⟨indirect, nh, hop, nhop, parsed, rnh', member', rfl⟩
      · simp only [connectedNexthop, host, if_true]
        exact texts.printIP_ne ip
      · exact ih cr best indirect nh hop nhop parsed nhop.isHost_toIPNet rnh' member'
    · simp

variable {rnh : ResolvedNexthop}

theorem Stems.address_ne {pref : RoutePreference} {nhop : Address}
    (stems : sr.Stems texts interfaces ni ip pref rnh nhop) : rnh.address ≠ "" := by
  obtain ⟨rib, -, cr, -, -, -, nh, -, -, nhs, inner, resolves, member, rfl⟩ := stems
  exact resolves.address_ne nhop.isHost_toIPNet inner member

theorem mem_egressNexthops {route : Route}
    (isOk : sr.egressNexthops texts interfaces order depth ni ip = .ok (nhs, some route)) :
    rnh ∈ nhs ↔ sr.Egress texts interfaces ni ip route.routePref rnh := by
  cases depth with
  | zero => cases isOk
  | succ depth =>
    obtain ⟨rib, groups, resolved, named, gathered, selected, inner⟩ := egressNexthops_gathered isOk
    rw [gathered.selected selected]
    constructor
    · rintro ⟨cr, best, pref, ⟨port, connected, enabled, rfl⟩ |
        ⟨indirect, nh, hop, nhop, parsed, rnh', member, rfl⟩⟩
      · exact Or.inr ⟨rib, named, cr, best, pref, port, connected, enabled, rfl⟩
      · obtain ⟨route', isOk'⟩ := inner cr best indirect nh hop nhop parsed
        exact Or.inl ⟨nhop, rib, named, cr, best, indirect, pref, nh, hop, parsed, _, rnh',
          egressNexthops_resolves isOk', member, rfl⟩
    · rintro (⟨nhop, rib', named', cr, best, indirect, pref, nh, hop, parsed, nhs', rnh', resolves,
        member, rfl⟩ | ⟨rib', named', cr, best, pref, port, connected, enabled, rfl⟩)
      · cases named.symm.trans named'
        obtain ⟨route', isOk'⟩ := inner cr best indirect nh hop nhop parsed
        have same : nhs' = resolved nh := resolves.unique (egressNexthops_resolves isOk')
        exact ⟨cr, best, pref, Or.inr ⟨indirect, nh, hop, nhop, parsed, rnh', same ▸ member, rfl⟩⟩
      · cases named.symm.trans named'
        exact ⟨cr, best, pref, Or.inl ⟨port, connected, enabled, rfl⟩⟩

theorem hopAt_of_address {r : ResolvedRoute} (order : NexthopOrder r.nexthops) {i : Nat}
    (isAt : order.hops[i]? = some rnh) (address : rnh.address ≠ "") :
    (resolvedRouteToRouteRequest r order).hopAt i =
      some (requestHop r.pfx (order.hops.getLastD rnh) rnh, rnh.weight) := by
  have member : rnh ∈ r.nexthops := order.mem_iff.mp (List.mem_of_getElem? isAt)
  have several : ¬ (r.nexthops.card = 1 ∧ ∃ nh ∈ r.nexthops, nh.address = "") := by
    rintro ⟨one, nh, member', none⟩
    rw [Finset.card_le_one.mp one.le rnh member nh member'] at address
    exact address none
  simp only [resolvedRouteToRouteRequest, if_neg several, Dpb.Route.hopAt, List.getElem?_map, isAt,
    Option.map_some]

theorem request_gue_iff (texts : Texts) (sr : SysRIB T) (interfaces : InterfaceStates)
    (order : Shuffle RoutePreference) (depth : Nat) (ni : String) (ip : IPNet)
    (nhs : Finset ResolvedNexthop) (route : Route)
    (isOk : sr.egressNexthops texts interfaces order depth ni ip = .ok (nhs, some route))
    (ebgp : route.routePref.adminDistance = 20) (rnh : ResolvedNexthop) (nhop : Address)
    (stems : sr.Stems texts interfaces ni ip route.routePref rnh nhop) (policy : GUEPolicy)
    (matched : sr.guePolicyFor nhop = some policy) :
    (∀ (visits : NexthopOrder nhs) (i : Nat), visits.hops[i]? = some rnh →
      (resolvedRouteToRouteRequest ⟨⟨ip, ni⟩, nhs⟩ visits).hopAt i =
        some (⟨ocInterface rnh.port, rnh.address, some (policyGUE ip nhop policy)⟩, rnh.weight)) ↔
      PolicyFits ip nhop policy ∧
        ∀ other, sr.Egress texts interfaces ni ip route.routePref other → Shares nhop policy other := by
  have member : rnh ∈ nhs := (mem_egressNexthops isOk).mpr (Or.inl ⟨nhop, stems⟩)
  have hop (visits : NexthopOrder nhs) {i : Nat} (isAt : visits.hops[i]? = some rnh) :
      (resolvedRouteToRouteRequest ⟨⟨ip, ni⟩, nhs⟩ visits).hopAt i =
          some (⟨ocInterface rnh.port, rnh.address, some (policyGUE ip nhop policy)⟩, rnh.weight) ↔
        PolicyFits ip nhop policy ∧ Shares nhop policy (visits.hops.getLastD rnh) := by
    rw [hopAt_of_address (r := ⟨⟨ip, ni⟩, nhs⟩) visits isAt stems.address_ne, Option.some_inj,
      Prod.mk.injEq, and_iff_left rfl]
    obtain ⟨-, -, cr, -, -, pref, -, -, -, -, inner, -, -, rfl⟩ := stems
    rw [← requestHop_gue_iff (pref ▸ ebgp) matched _ inner]
    refine ⟨congrArg Dpb.NextHop.gue, fun same => ?_⟩
    rw [← same]
    rfl
  constructor
  · intro right
    -- Each nexthop is the last one in some order of the map.
    have last {other : ResolvedNexthop} (isOther : other ∈ nhs) :
        PolicyFits ip nhop policy ∧ Shares nhop policy other := by
      obtain ⟨visits, isLast⟩ := NexthopOrder.exists_last isOther
      obtain ⟨i, isAt⟩ := List.getElem?_of_mem (visits.mem_iff.mpr member)
      rw [← isLast rnh]
      exact (hop visits isAt).mp (right visits i isAt)
    exact ⟨(last member).1, fun other egress => (last ((mem_egressNexthops isOk).mpr egress)).2⟩
  · rintro ⟨fits, shares⟩ visits i isAt
    exact (hop visits isAt).mpr
      ⟨fits, shares _ ((mem_egressNexthops isOk).mp (visits.getLastD_mem member))⟩

end Requests

end SysRIB

section Samples

def gateway6 : Address := .v6 #v[32, 1, 13, 184, 0, 0, 0, 0, 0, 0, 0, 0, 0, 0, 0, 1]

def gateway' : Address := .v4 #v[10, 0, 0, 2]

def ethernet' : Interface := ⟨"eth1", 2, 0⟩

def gueTexts : Texts :=
  .ofTables [("10.0.0.1", gateway), ("10.0.0.2", gateway'), ("2001:db8::1", gateway6)]
    [("20.0.0.0/8", remote)]

def samplePolicy : GUEPolicy where
  dstPortv4 := 1000
  dstPortv6 := 2000
  srcIP4 := #v[1, 1, 1, 1]
  srcIP6 := #v[32, 1, 13, 184, 0, 0, 0, 0, 0, 0, 0, 0, 0, 0, 0, 9]

def bgpRoute (texts : List String) : Route :=
  ⟨"20.0.0.0/8", none, texts.map (⟨1, ·, defaultNetworkInstance⟩), ⟨20, 0⟩⟩

def gueTags (ports : List Interface) (texts : List String) (under : IPNet) : TagList Route :=
  ports.map (fun port => (under, ⟨"", some port, [], ⟨0, 0⟩⟩)) ++ [(remote, bgpRoute texts)]

def gueRib (ports : List Interface) (texts : List String) (under : IPNet) : SysRIB TagList where
  ni := AList.singleton defaultNetworkInstance ⟨gueTags ports texts under⟩
  defaultNI := defaultNetworkInstance
  guePolicies := [(under, samplePolicy)]

def gueNexthop (port : Interface) (text : String) (headers : GUEHeaders) : ResolvedNexthop :=
  ⟨⟨0, text, defaultNetworkInstance⟩, port, headers⟩

theorem gueRib_stems {ports : List Interface} {texts : List String} {under : IPNet} (text : String)
    (nhop : Address) (inner : ResolvedNexthop) (hop : text ∈ texts) (parsed : gueTexts.address text = some nhop)
    (best : bgpRoute texts ∈ PrefixTree.findDeepestTags (gueTags ports texts under) remote)
    {nhs : Finset ResolvedNexthop} {route : Option Route}
    (resolves : (gueRib ports texts under).egressNexthops gueTexts (fun _ => true) Shuffle.id 1
      defaultNetworkInstance nhop.toIPNet = .ok (nhs, route))
    (member : inner ∈ nhs) :
    (gueRib ports texts under).Stems gueTexts (fun _ => true) defaultNetworkInstance remote ⟨20, 0⟩
      { inner with gueHeaders :=
        (gueRib ports texts under).encapHeaders remote (bgpRoute texts) nhop } nhop :=
  ⟨_, rfl, bgpRoute texts, best, rfl, rfl, _, List.mem_map_of_mem hop, parsed, _, _,
    SysRIB.egressNexthops_resolves resolves, member, rfl⟩

def headersTo (host : UInt8) : GUEHeaders :=
  { dstPortv4 := 1000, srcIP4 := samplePolicy.srcIP4, dstIP4 := #v[10, 0, 0, host] }

def twoPorts : Finset ResolvedNexthop :=
  {gueNexthop ethernet' "10.0.0.1" (headersTo 1), gueNexthop ethernet "10.0.0.1" (headersTo 1)}

def portOrder : NexthopOrder twoPorts where
  hops := [gueNexthop ethernet "10.0.0.1" (headersTo 1), gueNexthop ethernet' "10.0.0.1" (headersTo 1)]
  nodup := by decide +kernel
  toFinset := by decide +kernel

-- One nexthop of BGP is reached through two ports.
theorem policy_over_two_ports :
    (resolvedRouteToRouteRequest ⟨⟨remote, defaultNetworkInstance⟩, twoPorts⟩ portOrder).hopAt 0 =
      some (⟨ocInterface ethernet, "10.0.0.1", some (policyGUE remote gateway samplePolicy)⟩, 0) := by
  have isOk : (gueRib [ethernet, ethernet'] ["10.0.0.1"] (gateway.masked 8)).egressNexthops gueTexts
      (fun _ => true) Shuffle.id 2 defaultNetworkInstance remote =
        .ok (twoPorts, some (bgpRoute ["10.0.0.1"])) := rfl
  have stems := gueRib_stems "10.0.0.1" gateway (gueNexthop ethernet "10.0.0.1" {}) List.mem_cons_self
    rfl (by decide +kernel)
    (show (gueRib [ethernet, ethernet'] ["10.0.0.1"] (gateway.masked 8)).egressNexthops gueTexts
      (fun _ => true) Shuffle.id 1 defaultNetworkInstance gateway.toIPNet = .ok (_, _) from rfl)
    (by decide +kernel)
  refine (SysRIB.request_gue_iff _ _ _ _ _ _ _ _ _ isOk rfl _ _ stems samplePolicy rfl).mpr
    ⟨fun zero => absurd zero.1 (by decide +kernel), fun other egress => ?_⟩ portOrder 0 rfl
  have member := (SysRIB.mem_egressNexthops isOk).mpr egress
  rcases Finset.mem_insert.mp member with rfl | isSecond
  · exact ⟨rfl, rfl⟩
  · rw [Finset.mem_singleton.mp isSecond]
    exact ⟨rfl, rfl⟩

def twoHops : List ResolvedNexthop :=
  [gueNexthop ethernet "10.0.0.1" (headersTo 1), gueNexthop ethernet "10.0.0.2" (headersTo 2)]

def hop6 : List ResolvedNexthop :=
  [gueNexthop ethernet "2001:db8::1"
    { dstPortv6 := 2000, srcIP6 := samplePolicy.srcIP6, isV6 := true,
      dstIP6 := #v[32, 1, 13, 184, 0, 0, 0, 0, 0, 0, 0, 0, 0, 0, 0, 1] }]

def requested (hops : List ResolvedNexthop) (nodup : hops.Nodup) : Option Dpb.NextHop :=
  ((resolvedRouteToRouteRequest ⟨⟨remote, defaultNetworkInstance⟩, hops.toFinset⟩
    ⟨hops, nodup, rfl⟩).hopAt 0).map Prod.fst

-- An IPv4 route over an IPv6 nexthop goes out with port 0, not with the policy's 1000. Of a route over
-- two nexthops the first one goes out with the address of the second.
theorem gue_headers_differ :
    ((gueRib [ethernet] ["2001:db8::1"] (gateway6.masked 8)).egressNexthops gueTexts (fun _ => true)
        Shuffle.id 2 defaultNetworkInstance remote =
          .ok (hop6.toFinset, some (bgpRoute ["2001:db8::1"])) ∧
      (requested hop6 (by decide +kernel)).map (fun hop => (hop.nextHopIp, hop.gue.map (·.dstPort))) =
        some ("2001:db8::1", some 0) ∧
      (policyGUE remote gateway6 samplePolicy).dstPort = 1000) ∧
    (gueRib [ethernet] ["10.0.0.1", "10.0.0.2"] (gateway.masked 8)).egressNexthops gueTexts
        (fun _ => true) Shuffle.id 2 defaultNetworkInstance remote =
      .ok (twoHops.toFinset, some (bgpRoute ["10.0.0.1", "10.0.0.2"])) ∧
    (requested twoHops (by decide +kernel)).map (fun hop => (hop.nextHopIp, hop.gue.map (·.dstIp))) =
      some ("10.0.0.1", some [10, 0, 0, 2]) :=
  ⟨⟨by decide +kernel, by decide +kernel, rfl⟩, by decide +kernel, by decide +kernel⟩

end Samples

end Lemming.Sysrib
