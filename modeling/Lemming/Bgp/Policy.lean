import Lemming.Shared.Iteration

set_option autoImplicit false

namespace Lemming.Bgp

open Shared

structure Address where
  text : String
  barless : '|' ∉ text.toList
  hyphenless : '-' ∉ text.toList
deriving DecidableEq

namespace OC

inductive DefaultPolicyType where
  | UNSET
  | ACCEPT_ROUTE
  | REJECT_ROUTE

inductive PolicyResultType where
  | UNSET
  | ACCEPT_ROUTE
  | REJECT_ROUTE

inductive MatchSetOptionsType where
  | UNSET
  | ANY
  | ALL
  | INVERT

inductive MatchSetOptionsRestrictedType where
  | UNSET
  | ANY
  | INVERT

inductive AttributeComparison where
  | UNSET
  | ATTRIBUTE_EQ
  | ATTRIBUTE_GE
  | ATTRIBUTE_LE

inductive RouteType where
  | UNSET
  | INTERNAL
  | EXTERNAL

inductive WellKnownCommunity where
  | NO_EXPORT
  | NO_ADVERTISE
  | NO_EXPORT_SUBCONFED
  | NOPEER
  | other

inductive Community where
  | string (text : String)
  | uint32 (value : UInt32)
  | wellKnown (community : WellKnownCommunity)

inductive SetMed where
  | string (text : String)
  | uint32 (value : UInt32)
  -- With the text that ygot prints for the value.
  | enum (text : String)

inductive SetCommunityMethod where
  | UNSET
  | INLINE
  | REFERENCE

inductive SetCommunityOption where
  | UNSET
  | ADD
  | REMOVE
  | REPLACE

structure SetCommunity where
  method : SetCommunityMethod
  inlineCommunities : List Community
  communitySetRefs : List String
  communitySetRef : String
  options : SetCommunityOption

structure Statement where
  name : String
  prefixSet : String
  prefixSetOptions : MatchSetOptionsRestrictedType
  communitySet : String
  communityCountOperator : AttributeComparison
  communityCountValue : UInt32
  asPathSet : String
  asPathSetOptions : MatchSetOptionsType
  routeType : RouteType
  policyResult : PolicyResultType
  setCommunity : SetCommunity
  setLocalPref : UInt32
  setMed : Option SetMed
  prependRepeatN : UInt8
  prependAsn : UInt32

structure CommunitySet where
  communityMember : List Community
  matchSetOptions : MatchSetOptionsType

structure ApplyPolicy where
  defaultImportPolicy : DefaultPolicyType
  defaultExportPolicy : DefaultPolicyType
  importPolicy : List String
  exportPolicy : List String

structure Config where
  neighbor : GoMap Address ApplyPolicy
  communitySet : GoMap String CommunitySet
  policyDefinition : GoMap String (List Statement)

end OC

namespace GoBGP

inductive MatchSetOptions where
  | unset
  | any
  | all
  | invert

inductive RouteDisposition where
  | none
  | acceptRoute
  | rejectRoute

inductive DefaultPolicyType where
  | acceptRoute
  | rejectRoute

inductive AttributeComparison where
  | unset
  | eq
  | ge
  | le

inductive RouteType where
  | unset
  | internal
  | external

structure CommunitySet where
  communitySetName : String
  communityList : List String

structure NeighborSet where
  neighborSetName : String
  neighborInfoList : List String

structure Conditions where
  prefixSet : String := ""
  prefixSetOptions : MatchSetOptions := .unset
  communitySet : String := ""
  communitySetOptions : MatchSetOptions := .unset
  communityCountOperator : AttributeComparison := .unset
  communityCountValue : UInt32 := 0
  asPathSet : String := ""
  asPathSetOptions : MatchSetOptions := .unset
  routeType : RouteType := .unset

structure BgpActions where
  communitiesList : List String := []
  setCommunityOptions : String := ""
  setLocalPref : UInt32 := 0
  setMed : String := ""
  prependRepeatN : UInt8 := 0
  prependAs : String := ""

structure Statement where
  name : String
  neighborSet : String
  conditions : Conditions := {}
  routeDisposition : RouteDisposition
  bgpActions : BgpActions := {}

structure PolicyDefinition where
  name : String
  statements : List Statement

structure BgpConfigSet where
  communitySets : List CommunitySet
  neighborSets : List NeighborSet
  policyDefinitions : List PolicyDefinition
  importPolicyList : List String
  exportPolicyList : List String

end GoBGP

section Conversion

def convertPolicyName (neighAddr ocPolicyName : String) : String := neighAddr ++ "|" ++ ocPolicyName

def convertDefaultPolicy : OC.DefaultPolicyType → GoBGP.DefaultPolicyType
  | .REJECT_ROUTE => .rejectRoute
  | .ACCEPT_ROUTE => .acceptRoute
  | .UNSET => .rejectRoute

def defaultPolicyToRouteDisp : GoBGP.DefaultPolicyType → GoBGP.RouteDisposition
  | .rejectRoute => .rejectRoute
  | .acceptRoute => .acceptRoute

def convertMatchSetOptionsType : OC.MatchSetOptionsType → GoBGP.MatchSetOptions
  | .INVERT => .invert
  | .ANY => .any
  | .ALL => .all
  | .UNSET => .any

def convertMatchSetOptionsRestrictedType : OC.MatchSetOptionsRestrictedType → GoBGP.MatchSetOptions
  | .INVERT => .invert
  | .ANY => .any
  | .UNSET => .any

def convertRouteDisposition : OC.PolicyResultType → GoBGP.RouteDisposition
  | .REJECT_ROUTE => .rejectRoute
  | .ACCEPT_ROUTE => .acceptRoute
  | .UNSET => .none

def convertAttributeComparison : OC.AttributeComparison → GoBGP.AttributeComparison
  | .ATTRIBUTE_EQ => .eq
  | .ATTRIBUTE_GE => .ge
  | .ATTRIBUTE_LE => .le
  | .UNSET => .unset

def convertRouteType : OC.RouteType → GoBGP.RouteType
  | .EXTERNAL => .external
  | .INTERNAL => .internal
  | .UNSET => .unset

def convertCommunity : OC.Community → String
  | .string text => text
  | .uint32 _ => ""
  | .wellKnown .NO_EXPORT => "65535:65281"
  | .wellKnown .NO_ADVERTISE => "65535:65282"
  | .wellKnown .NO_EXPORT_SUBCONFED => "65535:65283"
  | .wellKnown .NOPEER => "65535:65284"
  | .wellKnown .other => ""

def convertMED : Option OC.SetMed → Except String String
  | none => .ok ""
  | some (.string text) => .ok text
  | some (.uint32 value) => .ok value.toNat.repr
  | some (.enum text) =>
    .error ("unsupported value for MED: (oc.E_BgpPolicy_BgpSetMedType_Enum, " ++ text ++ ")")

def sorted (names : List String) : List String := names.mergeSort fun a b => decide (a ≤ b)

def convertCommunitySet (occommset : GoMap String OC.CommunitySet) :
    List GoBGP.CommunitySet × GoMap String Nat :=
  (sorted occommset.keys).foldl (fun (commsets, indexMap) communitySetName =>
    match occommset.lookup communitySetName with
    | none => (commsets, indexMap)
    | some set =>
      (commsets ++ [⟨communitySetName, set.communityMember.map convertCommunity⟩],
        indexMap.insert communitySetName commsets.length)) ([], ∅)

variable (convertedCommSets : List GoBGP.CommunitySet) (commSetIndexMap : GoMap String Nat)

def referencedCommunities (commRef : String) : Except String (List String) :=
  match commSetIndexMap.lookup commRef with
  | none => .error ("Referenced community set not present in index map: " ++ commRef)
  | some index => .ok ((convertedCommSets[index]?.map GoBGP.CommunitySet.communityList).getD [])

def convertSetCommunities (setCommunity : OC.SetCommunity) : Except String (List String) :=
  match setCommunity.method with
  | .INLINE => .ok (setCommunity.inlineCommunities.map convertCommunity)
  | .REFERENCE =>
    if setCommunity.communitySetRefs.length > 0 then do
      let comms ← setCommunity.communitySetRefs.mapM
        (referencedCommunities convertedCommSets commSetIndexMap)
      return comms.flatten
    -- This leaf is deprecated, but it is used if the new leaf is not.
    else if setCommunity.communitySetRef ≠ "" then
      referencedCommunities convertedCommSets commSetIndexMap setCommunity.communitySetRef
    else .ok []
  | .UNSET => .ok []

variable (optionsText : OC.SetCommunityOption → String) (config : OC.Config)

def convertStatement (convertedPolicyName neighAddr : String) (statement : OC.Statement) :
    GoBGP.Statement where
  name := convertedPolicyName ++ ":" ++ statement.name
  neighborSet := neighAddr
  conditions :=
    { prefixSet := statement.prefixSet
      prefixSetOptions := convertMatchSetOptionsRestrictedType statement.prefixSetOptions
      communitySet := statement.communitySet
      communitySetOptions := convertMatchSetOptionsType
        (((config.communitySet.lookup statement.communitySet).map
          OC.CommunitySet.matchSetOptions).getD .UNSET)
      communityCountOperator := convertAttributeComparison statement.communityCountOperator
      communityCountValue := statement.communityCountValue
      asPathSet := statement.asPathSet
      asPathSetOptions := convertMatchSetOptionsType statement.asPathSetOptions
      routeType := convertRouteType statement.routeType }
  routeDisposition := convertRouteDisposition statement.policyResult
  bgpActions :=
    { communitiesList := match convertSetCommunities convertedCommSets commSetIndexMap
          statement.setCommunity with
        | .ok comms => comms
        | .error _ => []
      setCommunityOptions := (optionsText statement.setCommunity.options).toLower
      setLocalPref := statement.setLocalPref
      setMed := match convertMED statement.setMed with
        | .ok med => med
        | .error _ => ""
      prependRepeatN := statement.prependRepeatN
      prependAs := statement.prependAsn.toNat.repr }

def convertPolicyDefinition (policyName : String) (policy : List OC.Statement) (neighAddr : String) :
    GoBGP.PolicyDefinition where
  name := convertPolicyName neighAddr policyName
  statements := policy.map (convertStatement convertedCommSets commSetIndexMap optionsText config
    (convertPolicyName neighAddr policyName) neighAddr)

def populatePolicies (neighAddr : String) :
    List String → List String × List GoBGP.PolicyDefinition →
      List String × List String × List GoBGP.PolicyDefinition
  | [], (policies, definitions) => ([], policies, definitions)
  | policyName :: rest, (policies, definitions) =>
    let convertedPolicyName := convertPolicyName neighAddr policyName
    if policyName ∈ policies then
      -- Already processed
      let (applyPolicyList, s) := populatePolicies neighAddr rest (policies, definitions)
      (convertedPolicyName :: applyPolicyList, s)
    else
      match config.policyDefinition.lookup policyName with
      | none => populatePolicies neighAddr rest (policyName :: policies, definitions)
      | some policy =>
        let convertedPolicy := convertPolicyDefinition convertedCommSets commSetIndexMap optionsText
          config policyName policy neighAddr
        let (applyPolicyList, s) := populatePolicies neighAddr rest
          (policyName :: policies, definitions ++ [convertedPolicy])
        (convertedPolicyName :: applyPolicyList, s)

def defaultImportPolicyName (neighAddr : String) : String := "default-import|" ++ neighAddr

def defaultExportPolicyName (neighAddr : String) : String := "default-export|" ++ neighAddr

def defaultPolicy (name neighAddr : String) (policy : OC.DefaultPolicyType) :
    GoBGP.PolicyDefinition where
  name := name
  statements := [
    { name := name
      neighborSet := neighAddr
      routeDisposition := defaultPolicyToRouteDisp (convertDefaultPolicy policy) }]

def addNeighbor (bgpConfig : GoBGP.BgpConfigSet) (neighAddr : String) (applyPolicy : OC.ApplyPolicy) :
    GoBGP.BgpConfigSet :=
  let (importList, s) := populatePolicies convertedCommSets commSetIndexMap optionsText config
    neighAddr applyPolicy.importPolicy ([], bgpConfig.policyDefinitions)
  let (exportList, s) := populatePolicies convertedCommSets commSetIndexMap optionsText config
    neighAddr applyPolicy.exportPolicy s
  { bgpConfig with
    neighborSets := bgpConfig.neighborSets ++ [⟨neighAddr, [neighAddr]⟩]
    policyDefinitions := s.2 ++
      [defaultPolicy (defaultImportPolicyName neighAddr) neighAddr applyPolicy.defaultImportPolicy,
        defaultPolicy (defaultExportPolicyName neighAddr) neighAddr applyPolicy.defaultExportPolicy]
    importPolicyList := bgpConfig.importPolicyList ++ importList ++
      [defaultImportPolicyName neighAddr]
    exportPolicyList := bgpConfig.exportPolicyList ++ exportList ++
      [defaultExportPolicyName neighAddr] }

end Conversion

def OC.Config.neighbors (config : OC.Config) : List (Sigma fun _ : Address => OC.ApplyPolicy) :=
  config.neighbor.entries.mergeSort fun a b => decide (a.1.text ≤ b.1.text)

def intendedToGoBGPPolicies (optionsText : OC.SetCommunityOption → String) (config : OC.Config) :
    GoBGP.BgpConfigSet :=
  let (communitySets, communitySetIndexMap) := convertCommunitySet config.communitySet
  config.neighbors.foldl (fun bgpConfig neighbor =>
    addNeighbor communitySets communitySetIndexMap optionsText config bgpConfig neighbor.1.text neighbor.2)
    ⟨communitySets, [], [], [], []⟩

end Lemming.Bgp
