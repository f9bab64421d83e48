import Lemming.Bgp.Policy
import Lemming.Shared.RuleChain
import Lemming.Shared.Segment

set_option autoImplicit false

namespace Lemming.Bgp

open Shared

structure Semantics (R : Type) where
  holds : GoBGP.Conditions → R → Bool
  apply : GoBGP.BgpActions → R → R
  holds_none : ∀ route, holds {} route = true
  apply_none : ∀ route, apply {} route = route

inductive Direction where
  | imports
  | exports

namespace GoBGP

def verdict : RouteDisposition → Option Bool
  | .none => Option.none
  | .acceptRoute => some true
  | .rejectRoute => some false

def BgpConfigSet.policyList (config : BgpConfigSet) : Direction → List String
  | .imports => config.importPolicyList
  | .exports => config.exportPolicyList

def BgpConfigSet.statements (config : BgpConfigSet) : List Statement :=
  config.policyDefinitions.flatMap PolicyDefinition.statements

def BgpConfigSet.resolve (config : BgpConfigSet) (s : Statement) : Statement :=
  (config.statements.find? fun other => other.name == s.name).getD s

def BgpConfigSet.statementsOf (config : BgpConfigSet) (policy : String) : List Statement :=
  (((config.policyDefinitions.find? fun d => d.name == policy).map
    PolicyDefinition.statements).getD []).map config.resolve

def inNeighborSet (sets : List NeighborSet) (name peer : String) : Bool :=
  match sets.find? fun set => set.neighborSetName == name with
  | Option.none => false
  | some set => decide (peer ∈ set.neighborInfoList)

variable {R : Type} (sem : Semantics R)

def Statement.rule (s : Statement) : Rule R Bool := fun route =>
  if sem.holds s.conditions route then some (sem.apply s.bgpActions route, verdict s.routeDisposition)
  else Option.none

def Statement.scopedRule (sets : List NeighborSet) (peer : String) (s : Statement) : Rule R Bool :=
  fun route => if inNeighborSet sets s.neighborSet peer then s.rule sem route else Option.none

-- The global list of policies, for a route to or from a peer: the attributes it gets, and whether it is
-- accepted.
def BgpConfigSet.evaluate (config : BgpConfigSet) (peer : String) (direction : Direction) (route : R) :
    R × Option Bool :=
  runRules (((config.policyList direction).flatMap config.statementsOf).map
    (Statement.scopedRule sem config.neighborSets peer)) route

end GoBGP

namespace OC

def ApplyPolicy.policyList (applyPolicy : ApplyPolicy) : Direction → List String
  | .imports => applyPolicy.importPolicy
  | .exports => applyPolicy.exportPolicy

def ApplyPolicy.default (applyPolicy : ApplyPolicy) : Direction → DefaultPolicyType
  | .imports => applyPolicy.defaultImportPolicy
  | .exports => applyPolicy.defaultExportPolicy

def DefaultPolicyType.rule {R : Type} (policy : DefaultPolicyType) : Rule R Bool := fun route =>
  match policy with
  | .ACCEPT_ROUTE => some (route, some true)
  | .REJECT_ROUTE | .UNSET => some (route, some false)

section

variable (optionsText : SetCommunityOption → String) (config : Config)

def Config.converted (neighAddr policyName : String) : List GoBGP.Statement :=
  (convertPolicyDefinition (convertCommunitySet config.communitySet).1
    (convertCommunitySet config.communitySet).2 optionsText config policyName
    ((config.policyDefinition.lookup policyName).getD []) neighAddr).statements

def Config.reference {R : Type} (sem : Semantics R) (neighAddr : String) (applyPolicy : ApplyPolicy)
    (direction : Direction) (route : R) : R × Option Bool :=
  runRules (((applyPolicy.policyList direction).flatMap (config.converted optionsText neighAddr)).map
    (GoBGP.Statement.rule sem) ++ [(applyPolicy.default direction).rule]) route

end

end OC

section Lists

variable {α β : Type}

theorem find?_of_nodup [DecidableEq β] {f : α → β} {xs : List α} (distinct : (xs.map f).Nodup)
    {x : α} (member : x ∈ xs) : xs.find? (fun y => f y == f x) = some x := by
  induction xs with
  | nil => cases member
  | cons first rest ih =>
    rw [List.map_cons, List.nodup_cons] at distinct
    rcases List.mem_cons.mp member with rfl | later
    · simp
    · have different : f first ≠ f x := fun same =>
        distinct.1 (same ▸ List.mem_map_of_mem later)
      rw [List.find?_cons_of_neg (by simpa using different)]
      exact ih distinct.2 later

def fresh [DecidableEq α] : List α → List α → List α
  | _, [] => []
  | seen, x :: xs => if x ∈ seen then fresh seen xs else x :: fresh (x :: seen) xs

theorem mem_fresh [DecidableEq α] {seen xs : List α} {x : α} :
    x ∈ fresh seen xs ↔ x ∈ xs ∧ x ∉ seen := by
  induction xs generalizing seen with
  | nil => simp [fresh]
  | cons y ys ih =>
    rw [fresh]
    split
    · next isSeen =>
      rw [ih, List.mem_cons]
      constructor
      · exact fun ⟨isIn, unseen⟩ => ⟨Or.inr isIn, unseen⟩
      · rintro ⟨rfl | isIn, unseen⟩
        · exact absurd isSeen unseen
        · exact ⟨isIn, unseen⟩
    · next unseen =>
      rw [List.mem_cons, ih, List.mem_cons, List.mem_cons]
      by_cases same : x = y
      · simp [same, unseen]
      · simp [same]

theorem fresh_nodup [DecidableEq α] (seen xs : List α) : (fresh seen xs).Nodup := by
  induction xs generalizing seen with
  | nil => exact .nil
  | cons x xs ih =>
    rw [fresh]
    split
    · exact ih seen
    · rw [List.nodup_cons]
      refine ⟨?_, ih _⟩
      rw [mem_fresh]
      simp

end Lists

section Names

theorem Address.ext_text {a b : Address} (same : a.text = b.text) : a = b := by
  obtain ⟨text, _, _⟩ := a
  cases same
  rfl

theorem convertPolicyName_unique {a b : Address} {p q : String}
    (same : convertPolicyName a.text p = convertPolicyName b.text q) : a = b ∧ p = q := by
  have sameList := congrArg String.toList same
  simp only [convertPolicyName, String.toList_append, List.append_assoc] at sameList
  obtain ⟨sameAddress, samePolicy⟩ := front_unique a.barless b.barless (by simp) (by simp) sameList
  exact ⟨Address.ext_text (String.toList_inj.mp sameAddress),
    String.toList_inj.mp (List.cons.inj samePolicy).2⟩

theorem default_ne_converted {start : String} (barless : '|' ∉ start.toList)
    (hyphen : '-' ∈ start.toList) (a b : Address) (p : String) :
    start ++ "|" ++ b.text ≠ convertPolicyName a.text p := by
  intro same
  have sameList := congrArg String.toList same
  simp only [convertPolicyName, String.toList_append, List.append_assoc] at sameList
  have isAddress := (front_unique barless a.barless (by simp) (by simp) sameList).1
  exact a.hyphenless (isAddress ▸ hyphen)

def defaultPolicyName : Direction → String → String
  | .imports => defaultImportPolicyName
  | .exports => defaultExportPolicyName

theorem defaultPolicyName_ne_converted (direction : Direction) (a b : Address) (p : String) :
    defaultPolicyName direction b.text ≠ convertPolicyName a.text p := by
  cases direction with
  | imports =>
    exact @default_ne_converted "default-import" (by decide +kernel) (by decide +kernel) a b p
  | exports =>
    exact @default_ne_converted "default-export" (by decide +kernel) (by decide +kernel) a b p

theorem starts_differ (text text' : String) :
    "default-import|" ++ text ≠ "default-export|" ++ text' := by
  intro same
  have sameList := congrArg String.toList same
  rw [String.toList_append, String.toList_append] at sameList
  have lengths : "default-import|".toList.length = "default-export|".toList.length := by
    decide +kernel
  exact absurd (List.append_inj_left sameList lengths) (by decide +kernel)

theorem defaultPolicyName_unique {direction direction' : Direction} {a b : Address}
    (same : defaultPolicyName direction a.text = defaultPolicyName direction' b.text) :
    direction = direction' ∧ a = b := by
  cases direction <;> cases direction'
  · exact ⟨rfl, Address.ext_text ((String.append_right_inj _).mp same)⟩
  · exact absurd same (starts_differ _ _)
  · exact absurd same.symm (starts_differ _ _)
  · exact ⟨rfl, Address.ext_text ((String.append_right_inj _).mp same)⟩

end Names

section Building

variable (commSets : List GoBGP.CommunitySet) (indexMap : GoMap String Nat)
  (optionsText : OC.SetCommunityOption → String) (config : OC.Config)

def definitionOf (neighAddr policyName : String) : GoBGP.PolicyDefinition :=
  convertPolicyDefinition commSets indexMap optionsText config policyName
    ((config.policyDefinition.lookup policyName).getD []) neighAddr

-- The names that get into the list of a neighbour: a policy that does not exist is passed over only
-- when it is met for the first time.
def OC.Config.listed : List String → List String → List String
  | _, [] => []
  | seen, name :: rest =>
    if name ∈ seen then name :: listed seen rest
    else if name ∈ config.policyDefinition then name :: listed (name :: seen) rest
    else listed (name :: seen) rest

theorem populatePolicies_eq (neighAddr : String) (names seen : List String)
    (definitions : List GoBGP.PolicyDefinition) :
    populatePolicies commSets indexMap optionsText config neighAddr names (seen, definitions) =
      ((config.listed seen names).map (convertPolicyName neighAddr),
        (fresh seen names).reverse ++ seen,
        definitions ++ ((fresh seen names).filter (· ∈ config.policyDefinition)).map
          (definitionOf commSets indexMap optionsText config neighAddr)) := by
  induction names generalizing seen definitions with
  | nil => simp [populatePolicies, fresh, OC.Config.listed]
  | cons name rest ih =>
    rw [populatePolicies, fresh, OC.Config.listed]
    dsimp only
    split
    · rw [ih]
      rfl
    · cases found : config.policyDefinition.lookup name with
      | none =>
        have absent : name ∉ config.policyDefinition := AList.lookup_eq_none.mp found
        simp [ih, absent]
      | some policy =>
        have present : name ∈ config.policyDefinition := by simp [← AList.lookup_isSome, found]
        simp [ih, present, definitionOf, found]

def used (applyPolicy : OC.ApplyPolicy) : List String :=
  fresh [] applyPolicy.importPolicy ++
    fresh (fresh [] applyPolicy.importPolicy).reverse applyPolicy.exportPolicy

theorem used_nodup (applyPolicy : OC.ApplyPolicy) : (used applyPolicy).Nodup := by
  refine List.nodup_append.mpr ⟨fresh_nodup _ _, fresh_nodup _ _, ?_⟩
  intro name isImport name' isExport same
  subst same
  exact (mem_fresh.mp isExport).2 (List.mem_reverse.mpr isImport)

theorem mem_used {applyPolicy : OC.ApplyPolicy} {name : String} :
    name ∈ used applyPolicy ↔ ∃ direction, name ∈ applyPolicy.policyList direction := by
  rw [used, List.mem_append, mem_fresh, mem_fresh, List.mem_reverse, mem_fresh]
  constructor
  · rintro (⟨isImport, -⟩ | ⟨isExport, -⟩)
    exacts [⟨.imports, isImport⟩, ⟨.exports, isExport⟩]
  · by_cases isImport : name ∈ applyPolicy.importPolicy
    · exact fun _ => Or.inl ⟨isImport, List.not_mem_nil⟩
    · rintro ⟨_ | _, member⟩
      · exact absurd member isImport
      · exact Or.inr ⟨member, fun isIn => isImport isIn.1⟩

def defaultOf (neighAddr : String) (applyPolicy : OC.ApplyPolicy) (direction : Direction) :
    GoBGP.PolicyDefinition :=
  defaultPolicy (defaultPolicyName direction neighAddr) neighAddr (applyPolicy.default direction)

def definitionsFor (neighAddr : String) (applyPolicy : OC.ApplyPolicy) :
    List GoBGP.PolicyDefinition :=
  ((used applyPolicy).filter (· ∈ config.policyDefinition)).map
    (definitionOf commSets indexMap optionsText config neighAddr) ++
    [defaultOf neighAddr applyPolicy .imports, defaultOf neighAddr applyPolicy .exports]

def OC.Config.listedFor (applyPolicy : OC.ApplyPolicy) : Direction → List String
  | .imports => config.listed [] applyPolicy.importPolicy
  | .exports => config.listed (fresh [] applyPolicy.importPolicy).reverse applyPolicy.exportPolicy

def namesFor (neighAddr : String) (applyPolicy : OC.ApplyPolicy) (direction : Direction) :
    List String :=
  (config.listedFor applyPolicy direction).map (convertPolicyName neighAddr) ++
    [defaultPolicyName direction neighAddr]

variable {config}

theorem listed_complete {names : List String} (exist : ∀ name ∈ names, name ∈ config.policyDefinition)
    (seen : List String) : config.listed seen names = names := by
  induction names generalizing seen with
  | nil => rfl
  | cons name rest ih =>
    obtain ⟨present, others⟩ := List.forall_mem_cons.mp exist
    rw [OC.Config.listed, ih others, ih others, if_pos present, ite_self]

theorem listedFor_complete {applyPolicy : OC.ApplyPolicy}
    (exist : ∀ direction, ∀ name ∈ applyPolicy.policyList direction, name ∈ config.policyDefinition)
    (direction : Direction) : config.listedFor applyPolicy direction = applyPolicy.policyList direction := by
  cases direction
  · exact listed_complete (exist .imports) _
  · exact listed_complete (exist .exports) _

end Building

section Whole

variable {optionsText : OC.SetCommunityOption → String} {config : OC.Config}

def OC.Config.Complete (config : OC.Config) : Prop :=
  ∀ neighAddr applyPolicy, config.neighbor.lookup neighAddr = some applyPolicy →
    ∀ direction, ∀ name ∈ applyPolicy.policyList direction,
      ∃ policy, config.policyDefinition.lookup name = some policy

theorem mem_neighbors {neighAddr : Address} {applyPolicy : OC.ApplyPolicy} :
    ⟨neighAddr, applyPolicy⟩ ∈ config.neighbors ↔
      config.neighbor.lookup neighAddr = some applyPolicy := by
  rw [OC.Config.neighbors, (List.mergeSort_perm _ _).mem_iff]
  exact AList.mem_lookup_iff.symm

theorem neighbors_nodup (config : OC.Config) : (config.neighbors.map Sigma.fst).Nodup :=
  ((List.mergeSort_perm _ _).map Sigma.fst).nodup_iff.mpr config.neighbor.nodupKeys

def definitionsOf (optionsText : OC.SetCommunityOption → String) (config : OC.Config)
    (neighbor : Sigma fun _ : Address => OC.ApplyPolicy) : List GoBGP.PolicyDefinition :=
  definitionsFor (convertCommunitySet config.communitySet).1
    (convertCommunitySet config.communitySet).2 optionsText config neighbor.1.text neighbor.2

theorem intendedToGoBGPPolicies_eq (optionsText : OC.SetCommunityOption → String) (config : OC.Config) :
    intendedToGoBGPPolicies optionsText config =
      { communitySets := (convertCommunitySet config.communitySet).1
        neighborSets := config.neighbors.map fun n => ⟨n.1.text, [n.1.text]⟩
        policyDefinitions := config.neighbors.flatMap (definitionsOf optionsText config)
        importPolicyList := config.neighbors.flatMap fun n => namesFor config n.1.text n.2 .imports
        exportPolicyList := config.neighbors.flatMap fun n => namesFor config n.1.text n.2 .exports } := by
  unfold intendedToGoBGPPolicies
  obtain ⟨commSets, indexMap, isSets⟩ : ∃ commSets indexMap,
      convertCommunitySet config.communitySet = (commSets, indexMap) := ⟨_, _, rfl⟩
  unfold definitionsOf
  rw [isSets]
  dsimp only
  generalize config.neighbors = neighbors
  -- Each neighbour adds to what those before it have left.
  induction neighbors using List.reverseRecOn with
  | nil => rfl
  | append_singleton before n ih =>
    rw [List.foldl_append, ih, List.foldl_cons, List.foldl_nil]
    simp only [addNeighbor, populatePolicies_eq, definitionsFor, used, namesFor, List.filter_append,
      List.map_append, List.append_assoc, List.append_nil, List.flatMap_append, List.flatMap_singleton]
    rfl

def ownNames (neighAddr : String) (words : List String) : List String :=
  words.map (convertPolicyName neighAddr) ++
    [defaultPolicyName .imports neighAddr, defaultPolicyName .exports neighAddr]

theorem mem_ownNames {neighAddr name : String} {words : List String} :
    name ∈ ownNames neighAddr words ↔ (∃ word ∈ words, convertPolicyName neighAddr word = name) ∨
      ∃ direction, name = defaultPolicyName direction neighAddr := by
  rw [ownNames, List.mem_append, List.mem_map, List.mem_cons, List.mem_singleton]
  refine or_congr_right ⟨?_, ?_⟩
  · rintro (rfl | rfl)
    exacts [⟨.imports, rfl⟩, ⟨.exports, rfl⟩]
  · rintro ⟨direction, rfl⟩
    cases direction <;> simp

theorem ownNames_nodup (neighAddr : Address) (words : List String) :
    (ownNames neighAddr.text words).Nodup ↔ words.Nodup := by
  rw [ownNames, List.nodup_append]
  refine ⟨fun distinct => distinct.1.of_map _, fun distinct => ⟨?_, ?_, ?_⟩⟩
  · exact distinct.map fun p q same => (convertPolicyName_unique same).2
  · rw [List.nodup_cons, List.mem_singleton]
    refine ⟨?_, List.nodup_singleton _⟩
    intro same
    cases (defaultPolicyName_unique same).1
  · intro name isWord name' isDefault same
    subst same
    obtain ⟨p, -, rfl⟩ := List.mem_map.mp isWord
    simp only [List.mem_cons, List.not_mem_nil, or_false] at isDefault
    rcases isDefault with same | same
    · exact defaultPolicyName_ne_converted .imports _ _ p same.symm
    · exact defaultPolicyName_ne_converted .exports _ _ p same.symm

theorem ownNames_apart {a b : Address} {words words' : List String} {name : String}
    (isName : name ∈ ownNames a.text words) (isName' : name ∈ ownNames b.text words') : a = b := by
  rcases mem_ownNames.mp isName with ⟨p, -, rfl⟩ | ⟨direction, rfl⟩
  · rcases mem_ownNames.mp isName' with ⟨q, -, same⟩ | ⟨direction, same⟩
    · exact (convertPolicyName_unique same).1.symm
    · exact absurd same.symm (defaultPolicyName_ne_converted direction _ _ p)
  · rcases mem_ownNames.mp isName' with ⟨q, -, same⟩ | ⟨direction', same⟩
    · exact absurd same.symm (defaultPolicyName_ne_converted direction _ _ q)
    · exact (defaultPolicyName_unique same).2

theorem names_nodup_iff (config : OC.Config)
    (words : (Sigma fun _ : Address => OC.ApplyPolicy) → List String) :
    (config.neighbors.flatMap fun n => ownNames n.1.text (words n)).Nodup ↔
      ∀ n ∈ config.neighbors, (words n).Nodup := by
  rw [List.nodup_flatMap]
  simp only [ownNames_nodup, and_iff_left_iff_imp]
  intro _
  refine (List.pairwise_map.mp (neighbors_nodup config)).imp ?_
  intro n n' different name isName isName'
  exact different (ownNames_apart isName isName')

theorem definitionsOf_names (n : Sigma fun _ : Address => OC.ApplyPolicy) :
    (definitionsOf optionsText config n).map GoBGP.PolicyDefinition.name =
      ownNames n.1.text ((used n.2).filter (· ∈ config.policyDefinition)) := by
  rw [definitionsOf, definitionsFor, List.map_append, List.map_map]
  rfl

theorem policy_names_nodup (optionsText : OC.SetCommunityOption → String) (config : OC.Config) :
    ((config.neighbors.flatMap (definitionsOf optionsText config)).map
      GoBGP.PolicyDefinition.name).Nodup := by
  simp only [List.map_flatMap, definitionsOf_names]
  exact (names_nodup_iff _ _).mpr fun n _ => (used_nodup n.2).filter _

end Whole

section Evaluation

variable {R : Type} {optionsText : OC.SetCommunityOption → String} {config : OC.Config}

def OC.Config.Collisionless (optionsText : OC.SetCommunityOption → String) (config : OC.Config) :
    Prop :=
  ((intendedToGoBGPPolicies optionsText config).statements.map GoBGP.Statement.name).Nodup

variable {n : Sigma fun _ : Address => OC.ApplyPolicy}

theorem statementsOf_definition (distinct : config.Collisionless optionsText)
    (isNeighbor : n ∈ config.neighbors) (definition : GoBGP.PolicyDefinition)
    (member : definition ∈ definitionsOf optionsText config n) :
    (intendedToGoBGPPolicies optionsText config).statementsOf definition.name =
      definition.statements := by
  have definitions : (intendedToGoBGPPolicies optionsText config).policyDefinitions =
      config.neighbors.flatMap (definitionsOf optionsText config) := by
    rw [intendedToGoBGPPolicies_eq]
  have isDefinition : definition ∈ config.neighbors.flatMap (definitionsOf optionsText config) :=
    List.mem_flatMap.mpr ⟨n, isNeighbor, member⟩
  have found := find?_of_nodup (policy_names_nodup optionsText config) isDefinition
  have resolved : ∀ s ∈ definition.statements,
      (intendedToGoBGPPolicies optionsText config).resolve s = s := by
    intro s isStatement
    have isIn : s ∈ (intendedToGoBGPPolicies optionsText config).statements := by
      rw [GoBGP.BgpConfigSet.statements, definitions]
      exact List.mem_flatMap.mpr ⟨definition, isDefinition, isStatement⟩
    rw [GoBGP.BgpConfigSet.resolve, find?_of_nodup distinct isIn, Option.getD_some]
  rw [GoBGP.BgpConfigSet.statementsOf, definitions, found, Option.map_some, Option.getD_some]
  exact (List.map_congr_left resolved).trans (List.map_id _)

def blockOf (optionsText : OC.SetCommunityOption → String) (config : OC.Config) (direction : Direction)
    (n : Sigma fun _ : Address => OC.ApplyPolicy) : List GoBGP.Statement :=
  (n.2.policyList direction).flatMap (config.converted optionsText n.1.text) ++
    (defaultOf n.1.text n.2 direction).statements

theorem policyList_statements (complete : config.Complete)
    (distinct : config.Collisionless optionsText) (direction : Direction) :
    ((intendedToGoBGPPolicies optionsText config).policyList direction).flatMap
        (intendedToGoBGPPolicies optionsText config).statementsOf =
      config.neighbors.flatMap (blockOf optionsText config direction) := by
  have isList : (intendedToGoBGPPolicies optionsText config).policyList direction =
      config.neighbors.flatMap fun n => namesFor config n.1.text n.2 direction := by
    rw [intendedToGoBGPPolicies_eq]
    cases direction <;> rfl
  rw [isList, List.flatMap_assoc]
  apply List.flatMap_congr
  intro n isNeighbor
  have exist : ∀ direction, ∀ name ∈ n.2.policyList direction, name ∈ config.policyDefinition := by
    intro direction name member
    obtain ⟨policy, found⟩ := complete n.1 n.2 (mem_neighbors.mp isNeighbor) direction name member
    rw [← AList.lookup_isSome, found, Option.isSome_some]
  have ofPolicy : ∀ name ∈ n.2.policyList direction,
      (intendedToGoBGPPolicies optionsText config).statementsOf (convertPolicyName n.1.text name) =
        config.converted optionsText n.1.text name := by
    intro name member
    refine statementsOf_definition distinct isNeighbor
      (definitionOf _ _ optionsText config n.1.text name) ?_
    exact List.mem_append_left _ (List.mem_map_of_mem (List.mem_filter.mpr
      ⟨mem_used.mpr ⟨direction, member⟩, decide_eq_true (exist direction name member)⟩))
  have ofDefault : (intendedToGoBGPPolicies optionsText config).statementsOf
      (defaultPolicyName direction n.1.text) = (defaultOf n.1.text n.2 direction).statements := by
    refine statementsOf_definition distinct isNeighbor
      (defaultOf n.1.text n.2 direction) (List.mem_append_right _ ?_)
    cases direction <;> simp
  rw [namesFor, listedFor_complete exist, blockOf, List.flatMap_append, List.flatMap_map, List.flatMap_cons, List.flatMap_nil,
    List.append_nil, ofDefault]
  congr 1
  exact List.flatMap_congr ofPolicy

theorem inNeighborSet_iff (config : OC.Config) (isNeighbor : n ∈ config.neighbors) (peer : String) :
    GoBGP.inNeighborSet (config.neighbors.map fun n => ⟨n.1.text, [n.1.text]⟩) n.1.text peer =
      decide (n.1.text = peer) := by
  have distinct : ((config.neighbors.map fun n =>
      (⟨n.1.text, [n.1.text]⟩ : GoBGP.NeighborSet)).map GoBGP.NeighborSet.neighborSetName).Nodup := by
    rw [List.map_map]
    have addresses := neighbors_nodup config
    have texts := addresses.map fun _ _ => Address.ext_text
    rw [List.map_map] at texts
    exact texts
  have found := find?_of_nodup distinct (List.mem_map_of_mem isNeighbor)
  dsimp only at found
  rw [GoBGP.inNeighborSet, found]
  simp [eq_comm]

theorem blockOf_neighborSet {direction : Direction} {s : GoBGP.Statement}
    (member : s ∈ blockOf optionsText config direction n) :
    s.neighborSet = n.1.text := by
  rw [blockOf, List.mem_append] at member
  rcases member with ofPolicy | ofDefault
  · obtain ⟨name, -, isIn⟩ := List.mem_flatMap.mp ofPolicy
    obtain ⟨statement, -, rfl⟩ := List.mem_map.mp isIn
    rfl
  · rw [List.mem_singleton.mp ofDefault]

theorem default_rule (sem : Semantics R) (neighAddr : String) (applyPolicy : OC.ApplyPolicy)
    (direction : Direction) :
    (defaultOf neighAddr applyPolicy direction).statements.map (GoBGP.Statement.rule sem) =
      [(applyPolicy.default direction).rule] := by
  have rules : ∀ policy : OC.DefaultPolicyType, (fun route : R =>
      if sem.holds {} route then some (sem.apply {} route, GoBGP.verdict
        (defaultPolicyToRouteDisp (convertDefaultPolicy policy))) else none) = policy.rule := by
    intro policy
    funext route
    rw [if_pos (sem.holds_none route), sem.apply_none]
    cases policy <;> rfl
  exact congrArg (· :: []) (rules _)

end Evaluation

section Cases

def firstPeer : Address := ⟨"10.0.0.1", by decide +kernel, by decide +kernel⟩

def secondPeer : Address := ⟨"10.0.0.2", by decide +kernel, by decide +kernel⟩

def preferring : OC.Statement where
  name := "s"
  prefixSet := ""
  prefixSetOptions := .UNSET
  communitySet := ""
  communityCountOperator := .UNSET
  communityCountValue := 0
  asPathSet := ""
  asPathSetOptions := .UNSET
  routeType := .UNSET
  policyResult := .UNSET
  setCommunity := ⟨.UNSET, [], [], "", .UNSET⟩
  setLocalPref := 7
  setMed := none
  prependRepeatN := 0
  prependAsn := 0

def acceptingPolicy : OC.ApplyPolicy := ⟨.ACCEPT_ROUTE, .UNSET, [], []⟩

def preferringPolicy : OC.ApplyPolicy := ⟨.UNSET, .UNSET, ["p"], []⟩

theorem peers_distinct : [firstPeer, secondPeer].Nodup := by decide +kernel

def twoPeers : OC.Config where
  neighbor := ⟨[⟨firstPeer, acceptingPolicy⟩, ⟨secondPeer, preferringPolicy⟩], peers_distinct⟩
  communitySet := ∅
  policyDefinition := AList.insert "p" [preferring] ∅

def preference : Semantics Nat where
  holds := fun _ _ => true
  apply := fun actions route => route + actions.setLocalPref.toNat
  holds_none := fun _ => rfl
  apply_none := fun _ => rfl

theorem twoPeers_neighbors :
    twoPeers.neighbors = [⟨firstPeer, acceptingPolicy⟩, ⟨secondPeer, preferringPolicy⟩] := by
  have ordered : firstPeer.text ≤ secondPeer.text := by decide +kernel
  apply List.mergeSort_of_pairwise
  simpa [twoPeers] using ordered

theorem twoPeers_complete : twoPeers.Complete := by
  intro neighAddr applyPolicy isNeighbor direction name member
  have isPeer := mem_neighbors.mpr isNeighbor
  rw [twoPeers_neighbors] at isPeer
  simp only [List.mem_cons, Sigma.mk.injEq, heq_eq_eq, List.not_mem_nil, or_false] at isPeer
  rcases isPeer with ⟨-, rfl⟩ | ⟨-, rfl⟩
  · cases direction <;> cases member
  · cases direction with
    | imports =>
      rw [List.mem_singleton.mp member]
      exact ⟨[preferring], AList.lookup_insert _⟩
    | exports => cases member

theorem twoPeers_collisionless : twoPeers.Collisionless fun _ => "" := by
  rw [OC.Config.Collisionless, intendedToGoBGPPolicies_eq, twoPeers_neighbors]
  decide +kernel

end Cases

end Lemming.Bgp
