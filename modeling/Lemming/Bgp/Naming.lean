import Lemming.Bgp.Isolation

set_option autoImplicit false

namespace Lemming.Bgp

open Shared

variable {config : OC.Config} {applyPolicy : OC.ApplyPolicy} {name : String}

theorem mem_listed {seen names : List String} :
    name ∈ config.listed seen names ↔ name ∈ names ∧
      (name ∈ config.policyDefinition ∨ name ∈ seen ∨ 1 < names.count name) := by
  induction names generalizing seen with
  | nil => simp [OC.Config.listed]
  | cons first rest ih =>
    rw [OC.Config.listed]
    by_cases same : first = name
    · subst same
      by_cases isSeen : first ∈ seen
      · simp [isSeen]
      · by_cases defined : first ∈ config.policyDefinition
        · simp [isSeen, defined]
        · simp [isSeen, defined, ih, List.count_pos_iff]
    · have other : name ≠ first := Ne.symm same
      split
      · simp [ih, other, same]
      · split <;> simp [ih, other, same]

theorem undefined_listed (undefined : name ∉ config.policyDefinition) :
    (∃ direction, name ∈ config.listedFor applyPolicy direction) ↔
      1 < (applyPolicy.importPolicy ++ applyPolicy.exportPolicy).count name := by
  have imports : name ∈ config.listedFor applyPolicy .imports ↔
      1 < applyPolicy.importPolicy.count name := by
    simp only [OC.Config.listedFor, mem_listed, undefined, List.not_mem_nil, false_or]
    exact and_iff_right_of_imp fun twice => List.count_pos_iff.mp (by omega)
  have exports : name ∈ config.listedFor applyPolicy .exports ↔
      0 < applyPolicy.exportPolicy.count name ∧
        (0 < applyPolicy.importPolicy.count name ∨ 1 < applyPolicy.exportPolicy.count name) := by
    simp [OC.Config.listedFor, mem_listed, mem_fresh, undefined, List.count_pos_iff]
  rw [List.count_append]
  constructor
  · rintro ⟨_ | _, listed⟩
    · have twice := imports.mp listed
      omega
    · have twice := exports.mp listed
      omega
  · intro twice
    by_cases first : 1 < applyPolicy.importPolicy.count name
    · exact ⟨.imports, imports.mpr first⟩
    · exact ⟨.exports, exports.mpr (by omega)⟩

theorem mem_policyList {optionsText : OC.SetCommunityOption → String} {direction : Direction} :
    name ∈ (intendedToGoBGPPolicies optionsText config).policyList direction ↔
      ∃ n ∈ config.neighbors, name ∈ namesFor config n.1.text n.2 direction := by
  rw [intendedToGoBGPPolicies_eq]
  cases direction <;> exact List.mem_flatMap

theorem mem_definitions {optionsText : OC.SetCommunityOption → String} :
    name ∈ (intendedToGoBGPPolicies optionsText config).policyDefinitions.map
        GoBGP.PolicyDefinition.name ↔
      ∃ n ∈ config.neighbors, name ∈ ownNames n.1.text ((used n.2).filter (· ∈ config.policyDefinition)) := by
  simp only [intendedToGoBGPPolicies_eq, List.map_flatMap, definitionsOf_names, List.mem_flatMap]

theorem references_defined_iff (optionsText : OC.SetCommunityOption → String) (config : OC.Config) :
    (∀ direction, ∀ name ∈ (intendedToGoBGPPolicies optionsText config).policyList direction,
      name ∈ (intendedToGoBGPPolicies optionsText config).policyDefinitions.map
        GoBGP.PolicyDefinition.name) ↔
      ∀ neighAddr applyPolicy, config.neighbor.lookup neighAddr = some applyPolicy →
        ∀ name ∉ config.policyDefinition,
          (applyPolicy.importPolicy ++ applyPolicy.exportPolicy).count name ≤ 1 := by
  simp only [mem_policyList, mem_definitions, mem_ownNames, ← mem_neighbors]
  constructor
  · intro defined neighAddr applyPolicy isNeighbor name undefined
    by_contra twice
    obtain ⟨direction, listed⟩ := (undefined_listed undefined).mpr (Nat.lt_of_not_le twice)
    obtain ⟨n, -, ⟨word, isUsed, same⟩ | ⟨direction', same⟩⟩ := defined direction
      (convertPolicyName neighAddr.text name)
      ⟨_, isNeighbor, List.mem_append_left _ (List.mem_map_of_mem listed)⟩
    · obtain ⟨-, rfl⟩ := convertPolicyName_unique same
      exact undefined (by simpa using (List.mem_filter.mp isUsed).2)
    · exact defaultPolicyName_ne_converted direction' _ _ _ same.symm
  · rintro once direction name ⟨n, isNeighbor, isName⟩
    refine ⟨n, isNeighbor, ?_⟩
    rcases List.mem_append.mp isName with isPolicy | isDefault
    · obtain ⟨word, listed, rfl⟩ := List.mem_map.mp isPolicy
      have defined : word ∈ config.policyDefinition := by
        by_contra undefined
        have twice := (undefined_listed undefined).mp ⟨direction, listed⟩
        exact Nat.not_le_of_lt twice (once n.1 n.2 isNeighbor word undefined)
      refine Or.inl ⟨word, List.mem_filter.mpr ⟨mem_used.mpr ⟨direction, ?_⟩, by simpa⟩, rfl⟩
      cases direction <;> exact (mem_listed.mp listed).1
    · exact Or.inr ⟨direction, List.mem_singleton.mp isDefault⟩

def onePeer (applyPolicy : OC.ApplyPolicy) (policies : GoMap String (List OC.Statement)) : OC.Config where
  neighbor := AList.singleton firstPeer applyPolicy
  communitySet := ∅
  policyDefinition := policies

theorem onePeer_neighbors (applyPolicy : OC.ApplyPolicy) (policies : GoMap String (List OC.Statement)) :
    (onePeer applyPolicy policies).neighbors = [⟨firstPeer, applyPolicy⟩] :=
  List.mergeSort_singleton _

-- A policy that does not exist is named for import and for export.
theorem reference_dangles :
    "10.0.0.1|q" ∈ (intendedToGoBGPPolicies (fun _ => "")
        (onePeer ⟨.UNSET, .UNSET, ["q"], ["q"]⟩ ∅)).policyList .exports ∧
      "10.0.0.1|q" ∉ (intendedToGoBGPPolicies (fun _ => "")
        (onePeer ⟨.UNSET, .UNSET, ["q"], ["q"]⟩ ∅)).policyDefinitions.map GoBGP.PolicyDefinition.name := by
  rw [mem_policyList, mem_definitions, onePeer_neighbors]
  decide +kernel

def statementWords (config : OC.Config) (applyPolicy : OC.ApplyPolicy) : List String :=
  ((used applyPolicy).filter (· ∈ config.policyDefinition)).flatMap fun policyName =>
    ((config.policyDefinition.lookup policyName).getD []).map fun s => policyName ++ ":" ++ s.name

theorem collisionless_iff {optionsText : OC.SetCommunityOption → String} :
    config.Collisionless optionsText ↔ ∀ n ∈ config.neighbors, (statementWords config n.2).Nodup := by
  rw [← names_nodup_iff, OC.Config.Collisionless, GoBGP.BgpConfigSet.statements,
    intendedToGoBGPPolicies_eq, List.flatMap_assoc, List.map_flatMap]
  refine iff_of_eq (congrArg List.Nodup (List.flatMap_congr fun n _ => ?_))
  simp only [definitionsOf, definitionsFor, ownNames, statementWords, definitionOf, convertPolicyDefinition,
    List.flatMap_append, List.flatMap_map, List.map_append, List.map_flatMap, List.map_map]
  congr 1
  refine List.flatMap_congr fun policyName _ => List.map_congr_left fun s _ => ?_
  simp [convertStatement, convertPolicyName, String.append_assoc]

theorem mem_defined : name ∈ (used applyPolicy).filter (· ∈ config.policyDefinition) ↔
    (∃ direction, name ∈ applyPolicy.policyList direction) ∧
      ∃ policy, config.policyDefinition.lookup name = some policy := by
  rw [List.mem_filter, mem_used, decide_eq_true_eq, ← AList.lookup_isSome, Option.isSome_iff_exists]

theorem statement_names_distinct_iff (optionsText : OC.SetCommunityOption → String) (config : OC.Config)
    (keyed : ∀ entry ∈ config.policyDefinition.entries, (entry.2.map OC.Statement.name).Nodup) :
    config.Collisionless optionsText ↔
      ∀ neighAddr applyPolicy, config.neighbor.lookup neighAddr = some applyPolicy →
        ∀ direction, ∀ p ∈ applyPolicy.policyList direction,
        ∀ direction', ∀ q ∈ applyPolicy.policyList direction', ∀ policy policy',
          config.policyDefinition.lookup p = some policy →
          config.policyDefinition.lookup q = some policy' → ∀ s ∈ policy, ∀ t ∈ policy',
            p ++ ":" ++ s.name = q ++ ":" ++ t.name → p = q := by
  simp only [collisionless_iff, ← mem_neighbors, Sigma.forall]
  refine forall₃_congr fun neighAddr applyPolicy _ => ?_
  rw [statementWords, List.nodup_flatMap]
  constructor
  · rintro ⟨-, apart⟩ direction p isP direction' q isQ policy policy' found found' s isS t isT same
    by_contra different
    have symmetric : Std.Symm (Function.onFun List.Disjoint fun name =>
        ((config.policyDefinition.lookup name).getD []).map fun s => name ++ ":" ++ s.name) :=
      ⟨fun _ _ apart => apart.symm⟩
    refine apart.forall (mem_defined.mpr ⟨⟨direction, isP⟩, policy, found⟩)
      (mem_defined.mpr ⟨⟨direction', isQ⟩, policy', found'⟩) different
      (List.mem_map.mpr ⟨s, ?_, rfl⟩) (List.mem_map.mpr ⟨t, ?_, same.symm⟩)
    · rwa [found]
    · rwa [found']
  · intro distinct
    refine ⟨fun name isName => ?_, ((used_nodup _).filter _).pairwise_of_forall_ne ?_⟩
    · obtain ⟨-, policy, found⟩ := mem_defined.mp isName
      have names := (keyed _ (AList.mem_lookup_iff.mp found)).map fun _ _ =>
        (String.append_right_inj (name ++ ":")).mp
      rw [found]
      rwa [List.map_map] at names
    · intro p isP q isQ different word isWord isWord'
      obtain ⟨s, isS, rfl⟩ := List.mem_map.mp isWord
      obtain ⟨t, isT, same⟩ := List.mem_map.mp isWord'
      obtain ⟨⟨direction, isP⟩, policy, found⟩ := mem_defined.mp isP
      obtain ⟨⟨direction', isQ⟩, policy', found'⟩ := mem_defined.mp isQ
      rw [found] at isS
      rw [found'] at isT
      exact different (distinct direction p isP direction' q isQ policy policy' found found' s isS t isT
        same.symm)

theorem statement_names_distinct_one_policy :
    (onePeer ⟨.UNSET, .UNSET, ["p"], ["p"]⟩ (AList.singleton "p" [preferring])).Collisionless fun _ => "" := by
  refine (statement_names_distinct_iff _ _ (by decide +kernel)).mpr ?_
  intro neighAddr applyPolicy isNeighbor direction p isP direction' q isQ _ _ _ _ _ _ _ _ _
  rw [← mem_neighbors, onePeer_neighbors] at isNeighbor
  cases List.mem_singleton.mp isNeighbor
  have only {direction : Direction} {name : String}
      (member : name ∈ OC.ApplyPolicy.policyList ⟨.UNSET, .UNSET, ["p"], ["p"]⟩ direction) : name = "p" := by
    cases direction <;> exact List.mem_singleton.mp member
  rw [only isP, only isQ]

-- The statement "b:c" of the policy "a" and the statement "c" of the policy "a:b".
theorem statement_names_clash :
    ¬ (onePeer ⟨.UNSET, .UNSET, ["a", "a:b"], []⟩ (AList.insert "a" [{ preferring with name := "b:c" }]
      (AList.singleton "a:b" [{ preferring with name := "c" }]))).Collisionless fun _ => "" := by
  rw [collisionless_iff, onePeer_neighbors]
  decide +kernel

section Communities

def uint32ToCommunityString (comm : UInt32) : String :=
  (comm >>> 16).toUInt16.toNat.repr ++ ":" ++ comm.toUInt16.toNat.repr

def convertCommunityOC (y : UInt32) : OC.Community :=
  .string ((y >>> 16).toNat.repr ++ ":" ++ (y &&& 0x0000ffff).toNat.repr)

-- The two forms in which a configuration gives a value.
def OC.Community.Gives (value : UInt32) : OC.Community → Prop
  | .uint32 number => number = value
  | .string text => text = uint32ToCommunityString value
  | .wellKnown _ => False

theorem repr_unique {m n : Nat} (same : m.repr = n.repr) : m = n := by
  have digits := congrArg (fun text => Nat.ofDigitChars 10 text.toList 0) same
  simpa using digits

theorem repr_colonless (n : Nat) : ':' ∉ n.repr.toList := by
  intro inside
  rw [Nat.toList_repr] at inside
  exact absurd (Nat.isDigit_of_mem_toDigits (by decide) (by decide) inside) (by decide)

variable {value other : UInt32}

theorem uint32ToCommunityString_injective
    (same : uint32ToCommunityString value = uint32ToCommunityString other) : value = other := by
  have texts := congrArg String.toList same
  simp only [uint32ToCommunityString, String.toList_append, List.append_assoc] at texts
  obtain ⟨high, low⟩ := front_unique (repr_colonless _) (repr_colonless _) (by simp) (by simp) texts
  have isHigh := repr_unique (String.toList_inj.mp high)
  have isLow := repr_unique (String.toList_inj.mp (List.cons.inj low).2)
  simp [Nat.shiftRight_eq_div_pow] at isHigh isLow
  have bound := value.toNat_lt
  have bound' := other.toNat_lt
  exact UInt32.toNat.inj (by omega)

theorem convertCommunityOC_eq (y : UInt32) :
    convertCommunityOC y = .string (uint32ToCommunityString y) := by
  have low : (y &&& 0x0000ffff).toNat = y.toUInt16.toNat :=
    Nat.and_two_pow_sub_one_eq_mod y.toNat 16
  have high : (y >>> 16).toNat = (y >>> 16).toUInt16.toNat := by
    have bound := y.toNat_lt
    simp [Nat.shiftRight_eq_div_pow]
    omega
  rw [convertCommunityOC, low, high, uint32ToCommunityString]

theorem communities_kept_iff (communities : List OC.Community) :
    (∀ community ∈ communities, ∀ value, community.Gives value →
      convertCommunity community = uint32ToCommunityString value ∧
      (∀ again ∈ communities, again.Gives value → convertCommunity again = convertCommunity community) ∧
      ∀ y, uint32ToCommunityString y = convertCommunity community →
        y = value ∧ (convertCommunityOC y).Gives value) ↔
    ∀ number, .uint32 number ∉ communities := by
  constructor
  · intro kept number isMember
    have text := congrArg String.toList (kept _ isMember number rfl).1
    simp [convertCommunity, uint32ToCommunityString] at text
  · intro texts community isMember value gives
    have isText {community : OC.Community} (isMember : community ∈ communities)
        (gives : community.Gives value) :
        convertCommunity community = uint32ToCommunityString value := by
      cases community with
      | uint32 number => exact absurd isMember (texts number)
      | string text => exact gives
      | wellKnown _ => exact gives.elim
    rw [isText isMember gives]
    refine ⟨rfl, fun again => isText, fun y same => ?_⟩
    cases uint32ToCommunityString_injective same
    exact ⟨rfl, by rw [convertCommunityOC_eq]; rfl⟩

theorem community_number_lost :
    OC.Community.Gives 65537 (.uint32 65537) ∧
      convertCommunity (.uint32 65537) ≠ uint32ToCommunityString 65537 := by
  exact ⟨rfl, by decide +kernel⟩

end Communities

end Lemming.Bgp
