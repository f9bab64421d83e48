import Lemming.Shared.BitString
import Lemming.Shared.Iteration
import Lemming.Shared.Outcome
import Lemming.Shared.CallGraph
import Mathlib.Data.List.Sort

set_option autoImplicit false

namespace Lemming.Sysrib

open Lemming.Shared

inductive Family where
  | v4
  | v6
deriving DecidableEq, Repr

def Family.width : Family → Nat
  | .v4 => 32
  | .v6 => 128

inductive Address where
  | v4 (octets : Vector UInt8 4)
  | v6 (octets : Vector UInt8 16)
deriving DecidableEq, Repr

namespace Address

def family : Address → Family
  | .v4 _ => .v4
  | .v6 _ => .v6

def bits : Address → List Bool
  | .v4 octets => bitString octets.toList
  | .v6 octets => bitString octets.toList

theorem bits_length (address : Address) : address.bits.length = address.family.width := by
  cases address <;> simp [bits, family, Family.width]

end Address

structure IPNet where
  family : Family
  bits : List Bool
  fits : bits.length ≤ family.width
deriving DecidableEq

namespace IPNet

def covers (ip other : IPNet) : Bool :=
  ip.family = other.family && ip.bits.isPrefixOf other.bits

def isHost (ip : IPNet) : Bool :=
  ip.bits.length = ip.family.width

end IPNet

namespace Address

def toIPNet (address : Address) : IPNet :=
  ⟨address.family, address.bits, address.bits_length.le⟩

def masked (address : Address) (length : Nat) : IPNet :=
  ⟨address.family, address.bits.take length, (List.length_take_le' _ _).trans address.bits_length.le⟩

theorem isHost_toIPNet (address : Address) : address.toIPNet.isHost = true := by
  simp [IPNet.isHost, toIPNet, address.bits_length]

end Address

-- How the libraries read and print addresses and prefixes. `ipnet` is `netip.ParsePrefix` followed by
-- masking, and `parseIP` is `patricia.ParseIPFromString`.
structure Texts where
  address : String → Option Address
  ipnet : String → Except String IPNet
  parseIP : String → Except String (Option IPNet)
  printIP : IPNet → String
  printIPNet : IPNet → String
  printIP_ne : ∀ ip, printIP ip ≠ ""

def Texts.ofTables (addresses : List (String × Address)) (nets : List (String × IPNet)) : Texts where
  address := fun text => addresses.lookup text
  ipnet := fun text => (nets.lookup text).elim (.error ("netip.ParsePrefix: " ++ text)) .ok
  parseIP := fun text => .ok (nets.lookup text)
  printIP := fun ip =>
    match addresses.find? fun entry => entry.2.toIPNet = ip && entry.1 ≠ "" with
    | some entry => entry.1
    | none => "?"
  printIPNet := fun ip => ((nets.find? fun entry => entry.2 = ip).map (·.1)).getD "?"
  printIP_ne := by
    intro ip
    split
    · next entry found =>
      have accepted := List.find?_some found
      simp only [Bool.and_eq_true, decide_eq_true_eq] at accepted
      exact accepted.2
    · decide

section Trees

variable {τ : Type}

def deepest (tags : List (IPNet × τ)) (query ip : IPNet) : Bool :=
  ip.covers query && tags.all fun other => !other.1.covers query || other.1.bits.length ≤ ip.bits.length

theorem deepest_perm {tags tags' : List (IPNet × τ)} (perm : tags.Perm tags') (query ip : IPNet) :
    deepest tags query ip = deepest tags' query ip := by
  rw [deepest, deepest, perm.all_eq]

end Trees

-- The trees of kentik/patricia, with `tags` for what a tree holds. The trees for the two families are
-- one here, since a prefix knows its family.
class PrefixTree (T : Type → Type) where
  empty {τ : Type} : T τ
  tags {τ : Type} (tree : T τ) : List (IPNet × τ)
  delete {τ : Type} (tree : T τ) (ip : IPNet) (same : τ → τ → Bool) (tag : τ) : T τ
  add {τ : Type} (tree : T τ) (ip : IPNet) (tag : τ) (same : τ → τ → Bool) : T τ
  set {τ : Type} (tree : T τ) (ip : IPNet) (tag : τ) : T τ
  findDeepestTags {τ : Type} (tree : T τ) (query : IPNet) : List τ
  tags_delete {τ : Type} (tree : T τ) (ip : IPNet) (same : τ → τ → Bool) (tag : τ) :
    (tags (delete tree ip same tag)).Perm
      ((tags tree).filter fun entry => !(entry.1 = ip && same entry.2 tag))
  tags_add {τ : Type} (tree : T τ) (ip : IPNet) (tag : τ) (same : τ → τ → Bool) :
    (tags (add tree ip tag same)).Perm
      (if (tags tree).any fun entry => entry.1 = ip && same entry.2 tag then tags tree
        else tags tree ++ [(ip, tag)])
  mem_findDeepestTags {τ : Type} (tree : T τ) (query : IPNet) (tag : τ) :
    tag ∈ findDeepestTags tree query ↔
      ∃ ip, (ip, tag) ∈ tags tree ∧ deepest (tags tree) query ip = true

-- Trees as the list of their tags, for samples.
abbrev TagList (τ : Type) := List (IPNet × τ)

instance : PrefixTree TagList where
  empty := []
  tags := id
  delete := fun tree ip same tag => tree.filter fun entry => !(entry.1 = ip && same entry.2 tag)
  add := fun tree ip tag same =>
    if tree.any fun entry => entry.1 = ip && same entry.2 tag then tree else tree ++ [(ip, tag)]
  set := fun tree ip tag => tree.filter (fun entry => entry.1 ≠ ip) ++ [(ip, tag)]
  findDeepestTags := fun tree query =>
    (tree.filter fun entry => deepest tree query entry.1).map (·.2)
  tags_delete := fun _ _ _ _ => .refl _
  tags_add := fun _ _ _ _ => .refl _
  mem_findDeepestTags := by simp

structure GUEPolicy where
  dstPortv4 : UInt16 := 0
  dstPortv6 : UInt16 := 0
  srcIP4 : Vector UInt8 4 := Vector.replicate 4 0
  srcIP6 : Vector UInt8 16 := Vector.replicate 16 0
deriving DecidableEq

structure GUEHeaders extends GUEPolicy where
  dstIP4 : Vector UInt8 4 := Vector.replicate 4 0
  dstIP6 : Vector UInt8 16 := Vector.replicate 16 0
  isV6 : Bool := false
deriving DecidableEq

structure RoutePreference where
  adminDistance : UInt8
  metric : UInt32
deriving DecidableEq, Repr

structure Interface where
  name : String
  index : Int32
  subinterface : UInt32
deriving DecidableEq

structure NextHopSummary where
  weight : UInt64
  address : String
  networkInstance : String
deriving DecidableEq

structure Route where
  pfx : String
  connected : Option Interface
  nextHops : List NextHopSummary
  routePref : RoutePreference
deriving DecidableEq

structure NIRIB (T : Type → Type) where
  tree : T Route

structure SysRIB (T : Type → Type) where
  ni : GoMap String (NIRIB T)
  defaultNI : String
  guePolicies : T GUEPolicy

def defaultNetworkInstance : String := "DEFAULT"

def newSysRIB (T : Type → Type) [PrefixTree T] : SysRIB T where
  ni := AList.singleton defaultNetworkInstance ⟨PrefixTree.empty⟩
  defaultNI := defaultNetworkInstance
  guePolicies := PrefixTree.empty

def routeKeyMatches (texts : Texts) (a b : Route) : Bool :=
  match texts.ipnet a.pfx, texts.ipnet b.pfx with
  | .ok prefixA, .ok prefixB =>
    prefixA = prefixB && a.routePref.adminDistance = b.routePref.adminDistance &&
      a.connected = b.connected
  | _, _ => false

namespace SysRIB

open PrefixTree

variable {T : Type → Type} [PrefixTree T] (texts : Texts) (sr : SysRIB T)

-- The canonical prefix is printed and read again, and the trees are addressed by what comes back.
def setRoute (ni : String) (r : Route) (isDelete : Bool) : Outcome (SysRIB T) :=
  match sr.ni.lookup ni with
  | none => .error ("cannot find network instance " ++ ni)
  | some rib =>
    match texts.ipnet r.pfx with
    | .error err => .error ("sysrib: prefix cannot be parsed: " ++ err)
    | .ok net =>
      match texts.parseIP (texts.printIPNet net) with
      | .error err => .error ("cannot create prefix for " ++ r.pfx ++ ", " ++ err)
      | .ok none => .error ("route prefix is neither v4 or v6: " ++ r.pfx)
      | .ok (some ip) =>
        let tree := delete rib.tree ip (routeKeyMatches texts) r
        let tree := if isDelete then tree else add tree ip r (routeKeyMatches texts)
        .ok { sr with ni := sr.ni.insert ni ⟨tree⟩ }

def setGUEPolicy (pfx : String) (policy : GUEPolicy) : Outcome (SysRIB T) :=
  match texts.parseIP pfx with
  | .error err => .error ("cannot create prefix for " ++ pfx ++ ", " ++ err)
  | .ok none => .error ("SetGUEPolicy: invalid prefix: " ++ pfx)
  | .ok (some ip) => .ok { sr with guePolicies := set sr.guePolicies ip policy }

def deleteGUEPolicy (pfx : String) : Outcome (SysRIB T × Bool) :=
  match texts.parseIP pfx with
  | .error err => .error ("cannot create prefix for " ++ pfx ++ ", " ++ err)
  | .ok none => .error ("DeleteGUEPolicy: invalid prefix: " ++ pfx)
  | .ok (some ip) =>
    let guePolicies := delete sr.guePolicies ip (fun _ _ => true) {}
    .ok ({ sr with guePolicies }, (tags guePolicies).length < (tags sr.guePolicies).length)

def guePolicyFor (address : Address) : Option GUEPolicy :=
  (findDeepestTags sr.guePolicies address.toIPNet).head?

def getGUEHeader (address : Address) (payloadIsV6 : Bool) : Option GUEHeaders :=
  (sr.guePolicyFor address).map fun policy =>
    match address with
    | .v6 octets =>
      { dstPortv6 := policy.dstPortv6, srcIP6 := policy.srcIP6, dstIP6 := octets, isV6 := true }
    | .v4 octets =>
      if payloadIsV6 then
        { dstPortv6 := policy.dstPortv6, srcIP4 := policy.srcIP4, dstIP4 := octets }
      else
        { dstPortv4 := policy.dstPortv4, srcIP4 := policy.srcIP4, dstIP4 := octets }

def entryForCIDR (ni : String) (ip : IPNet) : Outcome (List Route) :=
  match sr.ni.lookup ni with
  | none => .error ("cannot find a RIB for network instance " ++ ni)
  | some rib => .ok (findDeepestTags rib.tree ip)

end SysRIB

structure ResolvedNexthop extends NextHopSummary where
  port : Interface
  gueHeaders : GUEHeaders
deriving DecidableEq

def ResolvedNexthop.hasGUE (nh : ResolvedNexthop) : Bool :=
  nh.gueHeaders ≠ {}

def RoutePreference.less (a b : RoutePreference) : Bool :=
  a.adminDistance < b.adminDistance || a.adminDistance = b.adminDistance && a.metric < b.metric

abbrev Groups := GoMap RoutePreference (Finset ResolvedNexthop × Route)

abbrev InterfaceStates := Interface → Bool

def addressToPrefix (texts : Texts) (address : String) : Outcome Address :=
  match texts.address address with
  | none => .error ("sysrib.addressToPrefix: cannot parse address: " ++ address)
  | some parsed => .ok parsed

namespace SysRIB

variable {T : Type → Type} [PrefixTree T] (texts : Texts) (sr : SysRIB T)

def inputNI (ni : String) : String :=
  if ni = "" then sr.defaultNI else ni

def egressRoute (recur : String → IPNet → Outcome (List Interface)) (egressIfs : List Interface)
    (cr : Route) : Outcome (List Interface) :=
  match cr.connected with
  | some port => .ok (egressIfs ++ [port])
  | none =>
    cr.nextHops.foldlM (fun egressIfs nh => do
      let nhop ← addressToPrefix texts nh.address
      let recursiveNHIfs ← (recur nh.networkInstance nhop.toIPNet).wrap
        ("for nexthop " ++ nh.address ++ ", can't resolve: ")
      return egressIfs ++ recursiveNHIfs) egressIfs

-- The source has no bound on the depth of its recursion.
def egressInterface : Nat → String → IPNet → Outcome (List Interface)
  | 0, _, _ => .diverge
  | depth + 1, ni, ip =>
    match sr.entryForCIDR (sr.inputNI ni) ip with
    | .ok routes => routes.foldlM (egressRoute texts (egressInterface depth)) []
    | _ => .error ("cannot lookup IP " ++ texts.printIPNet ip)

def encapHeaders (ip : IPNet) (cr : Route) (nhop : Address) : GUEHeaders :=
  if cr.routePref.adminDistance = 20 then
    (sr.getGUEHeader nhop (ip.family = .v6)).getD {}
  else {}

def resolveNexthop (recur : String → IPNet → Outcome (Finset ResolvedNexthop × Option Route))
    (ip : IPNet) (cr : Route) (nh : NextHopSummary) : Outcome (Finset ResolvedNexthop) := do
  let nhop ← addressToPrefix texts nh.address
  let (recursiveNHs, _) ← (recur nh.networkInstance nhop.toIPNet).wrap
    ("for nexthop " ++ nh.address ++ ", can't resolve: ")
  if ∃ rnh ∈ recursiveNHs, rnh.hasGUE then
    .error ("route resolves over another route that has a BGP-triggered GUE action, " ++
      "the behaviour is undefined")
  else
    return recursiveNHs.image fun rnh => { rnh with gueHeaders := sr.encapHeaders ip cr nhop }

def connectedNexthop (ni : String) (ip : IPNet) (port : Interface) : ResolvedNexthop where
  weight := 0
  address := if ip.isHost then texts.printIP ip else ""
  networkInstance := ni
  port := port
  gueHeaders := {}

def resolveRoute (interfaces : InterfaceStates)
    (recur : String → IPNet → Outcome (Finset ResolvedNexthop × Option Route)) (ni : String)
    (ip : IPNet) (groups : Groups) (cr : Route) : Outcome Groups := do
  let (egressNhs, first) := (groups.lookup cr.routePref).getD (∅, cr)
  match cr.connected with
  | some port =>
    let egressNhs :=
      if interfaces port then insert (connectedNexthop texts ni ip port) egressNhs else egressNhs
    return groups.insert cr.routePref (egressNhs, first)
  | none =>
    let egressNhs ← cr.nextHops.foldlM (fun egressNhs nh => do
      let more ← sr.resolveNexthop texts recur ip cr nh
      return egressNhs ∪ more) egressNhs
    return groups.insert cr.routePref (egressNhs, first)

def sortPrefs (prefs : List RoutePreference) : List RoutePreference :=
  prefs.insertionSort fun a b => b.less a = false

def groupAt (groups : Groups) (rp : RoutePreference) :
    Option (Finset ResolvedNexthop × Option Route) :=
  match groups.lookup rp with
  | some (nhs, route) => if nhs = ∅ then none else some (nhs, some route)
  | none => none

def selectGroup (order : Shuffle RoutePreference) (groups : Groups) :
    Finset ResolvedNexthop × Option Route :=
  ((sortPrefs (order.arrange groups.keys)).findSome? (groupAt groups)).getD (∅, none)

def egressNexthops (interfaces : InterfaceStates) (order : Shuffle RoutePreference) :
    Nat → String → IPNet → Outcome (Finset ResolvedNexthop × Option Route)
  | 0, _, _ => .diverge
  | depth + 1, ni, ip =>
    match sr.entryForCIDR (sr.inputNI ni) ip with
    | .ok routes => do
      let groups ← routes.foldlM (sr.resolveRoute texts interfaces
        (egressNexthops interfaces order depth) (sr.inputNI ni) ip) ∅
      return selectGroup order groups
    | _ => .error ("cannot lookup IP " ++ texts.printIPNet ip)

end SysRIB

end Lemming.Sysrib
