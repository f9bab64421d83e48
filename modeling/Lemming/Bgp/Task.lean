import Lemming.Bgp.Policy

set_option autoImplicit false

namespace Lemming.Bgp

section Validation

inductive OC.PrefixSetMode where
  | UNSET
  | IPV4
  | IPV6
  | MIXED
  deriving DecidableEq

-- The prefixes stand in the order in which the loop over the map meets them.
structure OC.PrefixSet where
  name : String
  mode : OC.PrefixSetMode
  ipPrefixes : List String

inductive Family where
  | ip4
  | ip6

structure Prefixes where
  parsePrefix : String → Option Family
  quote : String → String
  modeText : OC.PrefixSetMode → String

def OC.PrefixSetMode.meet : OC.PrefixSetMode → Family → OC.PrefixSetMode
  | .UNSET, .ip4 => .IPV4
  | .UNSET, .ip6 => .IPV6
  | .IPV4, .ip6 => .MIXED
  | .IPV6, .ip4 => .MIXED
  | gotMode, _ => gotMode

def OC.PrefixSetMode.family : OC.PrefixSetMode → Option Family
  | .IPV4 => some .ip4
  | .IPV6 => some .ip6
  | _ => none

variable (prefixes : Prefixes)

def prefixMode (name : String) : List String → OC.PrefixSetMode → Except String OC.PrefixSetMode
  | [], gotMode => .ok gotMode
  | pfx :: rest, gotMode =>
    match prefixes.parsePrefix pfx with
    | none => .error ("invalid prefix " ++ prefixes.quote pfx ++ " in prefix set " ++ prefixes.quote name)
    | some family => prefixMode name rest (gotMode.meet family)

def validatePrefixSet (prefixSet : OC.PrefixSet) : Except String Unit :=
  if prefixSet.ipPrefixes.length = 0 then
    .ok ()
  else if prefixSet.mode = .MIXED then
    .ok ()
  else do
    let gotMode ← prefixMode prefixes prefixSet.name prefixSet.ipPrefixes .UNSET
    if gotMode ≠ prefixSet.mode then
      .error ("prefix set " ++ prefixes.quote prefixSet.name ++ " has mode " ++ prefixes.modeText gotMode ++
        " based on parsing given prefixes, but has configured mode " ++ prefixes.modeText prefixSet.mode)

def validatePrefixSetMode : Option (List OC.PrefixSet) → Except String Unit
  | none => .ok ()
  | some definedSets => forM definedSets (validatePrefixSet prefixes)

variable {prefixes} {name : String} {wantMode : OC.PrefixSetMode}

theorem prefixMode_ok (single : wantMode ≠ .MIXED) (ipPrefixes : List String) (gotMode : OC.PrefixSetMode) :
    prefixMode prefixes name ipPrefixes gotMode = .ok wantMode ↔
      (gotMode = wantMode ∨ gotMode = .UNSET ∧ ipPrefixes ≠ []) ∧
        ∀ pfx ∈ ipPrefixes, ∃ family, prefixes.parsePrefix pfx = some family ∧ wantMode.family = some family := by
  induction ipPrefixes generalizing gotMode with
  | nil => simp [prefixMode]
  | cons pfx rest ih =>
    rw [prefixMode, List.forall_mem_cons]
    cases parsed : prefixes.parsePrefix pfx with
    | none => simp
    | some family =>
      dsimp only
      rw [ih]
      cases gotMode <;> cases family <;> cases wantMode <;>
        simp_all [OC.PrefixSetMode.meet, OC.PrefixSetMode.family]

theorem validatePrefixSet_ok (prefixSet : OC.PrefixSet) :
    validatePrefixSet prefixes prefixSet = .ok () ↔ (prefixSet.ipPrefixes ≠ [] → prefixSet.mode ≠ .MIXED →
      ∀ pfx ∈ prefixSet.ipPrefixes, ∃ family,
        prefixes.parsePrefix pfx = some family ∧ prefixSet.mode.family = some family) := by
  rw [validatePrefixSet]
  split
  · next empty => simp [List.length_eq_zero_iff.mp empty]
  · next filled =>
    have filled : prefixSet.ipPrefixes ≠ [] := fun empty => filled (by rw [empty]; rfl)
    split
    · next mixed => simp [mixed]
    · next single =>
      have checked := @prefixMode_ok prefixes prefixSet.name _ single prefixSet.ipPrefixes .UNSET
      rw [and_iff_right (Or.inr ⟨rfl, filled⟩)] at checked
      rw [← checked]
      cases prefixMode prefixes prefixSet.name prefixSet.ipPrefixes .UNSET with
      | error message => simp [filled, single, bind, Except.bind]
      | ok gotMode =>
        by_cases same : gotMode = prefixSet.mode <;>
          simp [same, filled, single, bind, Except.bind, pure, Except.pure]

theorem validatePrefixSetMode_ok_iff (prefixes : Prefixes) (definedSets : Option (List OC.PrefixSet)) :
    validatePrefixSetMode prefixes definedSets = .ok () ↔ ∀ prefixSets ∈ definedSets,
      ∀ prefixSet ∈ prefixSets, prefixSet.ipPrefixes ≠ [] → prefixSet.mode ≠ .MIXED →
        ∀ pfx ∈ prefixSet.ipPrefixes, ∃ family,
          prefixes.parsePrefix pfx = some family ∧ prefixSet.mode.family = some family := by
  cases definedSets with
  | none => simp [validatePrefixSetMode]
  | some prefixSets =>
    simp only [validatePrefixSetMode, Option.mem_def, Option.some.injEq, forall_eq']
    induction prefixSets with
    | nil => exact iff_of_true rfl nofun
    | cons prefixSet rest ih =>
      rw [List.forall_mem_cons, ← ih, ← validatePrefixSet_ok, List.forM_cons]
      cases validatePrefixSet prefixes prefixSet with
      | error message => exact iff_of_false nofun fun both => nomatch both.1
      | ok _ => exact (and_iff_right rfl).symm

end Validation

section Reconciling

variable {L V C : Type}

abbrev Neighbors (L V : Type) := Address → Option (L → Option V)

structure OC.ProtocolBgp (L V : Type) where
  as : Option UInt32
  routerId : Option String
  neighbor : Neighbors L V

-- `ygot.MergeStructInto` with `MergeOverwriteExistingFields`: the entries of both lists, and a leaf that is
-- set overwrites the old one.
def Neighbors.merged (old new : Neighbors L V) : Neighbors L V := fun address =>
  Option.merge (fun old new leaf => (new leaf).or (old leaf)) (old address) (new address)

structure Merge (L V : Type) where
  mergeStructInto : OC.ProtocolBgp L V → OC.ProtocolBgp L V → OC.ProtocolBgp L V
  neighbor : ∀ dst src, (mergeStructInto dst src).neighbor = dst.neighbor.merged src.neighbor

structure BgpTask (L V C : Type) where
  bgpStarted : Bool
  currentConfig : C
  appliedBGP : OC.ProtocolBgp L V

-- What `InitialConfig` or `UpdateConfig` returns, and the text of the configuration it was given.
structure Answer (C : Type) where
  currentConfig : C
  failed : Bool
  newConfig : String

def OC.ProtocolBgp.shouldStart (intendedBGP : OC.ProtocolBgp L V) : Bool :=
  intendedBGP.as.isSome && intendedBGP.routerId.isSome

variable (ygot : Merge L V)

def BgpTask.reconcile (t : BgpTask L V C) (intendedBGP : OC.ProtocolBgp L V) (answer : Answer C) :
    Option String × BgpTask L V C :=
  if intendedBGP.shouldStart && !t.bgpStarted then
    if answer.failed then
      (some ("Failed to apply initial BGP configuration " ++ answer.newConfig),
        { t with currentConfig := answer.currentConfig })
    else
      (none, ⟨true, answer.currentConfig, ygot.mergeStructInto t.appliedBGP intendedBGP⟩)
  else if t.bgpStarted then
    if answer.failed then
      (some ("Failed to update BGP service: " ++ answer.newConfig),
        { t with currentConfig := answer.currentConfig })
    else
      (none, ⟨true, answer.currentConfig, ygot.mergeStructInto t.appliedBGP intendedBGP⟩)
  else
    -- Waiting for BGP to be startable.
    (none, t)

-- A run of successful reconciles, each with the task it leaves.
inductive Reconciled : BgpTask L V C → List (OC.ProtocolBgp L V × BgpTask L V C) → Prop where
  | nil {t : BgpTask L V C} : Reconciled t []
  | cons {t next : BgpTask L V C} {intendedBGP : OC.ProtocolBgp L V} {answer : Answer C}
      {rest : List (OC.ProtocolBgp L V × BgpTask L V C)} (step : t.reconcile ygot intendedBGP answer = (none, next))
      (later : Reconciled next rest) : Reconciled t ((intendedBGP, next) :: rest)

-- Each neighbour is still there, with a value for each leaf that had one.
def Neighbors.Keeps (new old : Neighbors L V) : Prop :=
  ∀ address settings, old address = some settings → ∃ newer, new address = some newer ∧
    ∀ leaf, settings leaf ≠ none → newer leaf ≠ none

theorem Neighbors.Keeps.refl {old : Neighbors L V} : old.Keeps old :=
  fun _ settings found => ⟨settings, found, fun _ => id⟩

variable {ygot} {t next : BgpTask L V C} {run : List (OC.ProtocolBgp L V × BgpTask L V C)}

theorem reconcile_cases {intendedBGP : OC.ProtocolBgp L V} {answer : Answer C}
    (step : t.reconcile ygot intendedBGP answer = (none, next)) :
    (t.bgpStarted = true ∨ intendedBGP.shouldStart = true) ∧ next.bgpStarted = true ∧
      next.appliedBGP = ygot.mergeStructInto t.appliedBGP intendedBGP ∨
    (t.bgpStarted = false ∧ intendedBGP.shouldStart = false) ∧ next = t := by
  rw [BgpTask.reconcile] at step
  cases started : t.bgpStarted <;> cases starts : intendedBGP.shouldStart <;>
    cases failed : answer.failed <;> simp_all <;> simp [← step]

theorem merge_eq_iff {dst src : OC.ProtocolBgp L V} :
    (ygot.mergeStructInto dst src).neighbor = src.neighbor ↔ src.neighbor.Keeps dst.neighbor := by
  rw [ygot.neighbor, funext_iff]
  refine forall_congr' fun address => ?_
  simp only [Neighbors.merged]
  generalize dst.neighbor address = old, src.neighbor address = new
  cases old with
  | none => cases new <;> simp
  | some settings =>
    cases new with
    | none => simp
    | some newer =>
      simp only [Option.merge_some_some, Option.some.injEq, forall_eq', exists_eq_left']
      rw [funext_iff]
      refine forall_congr' fun leaf => ?_
      cases settings leaf <;> cases newer leaf <;> simp

theorem Reconciled.follows_iff (reconciled : Reconciled ygot t run) :
    (∀ step ∈ run, step.2.appliedBGP.neighbor = step.1.neighbor) ↔
      (t.appliedBGP.neighbor :: run.map fun step => step.1.neighbor).IsChain (fun old new => new.Keeps old) ∧
        (t.bgpStarted = false → ∀ step ∈ run.takeWhile fun step => !step.1.shouldStart,
        step.1.neighbor = t.appliedBGP.neighbor) := by
  induction reconciled with
  | nil => simp
  | @cons t next intendedBGP answer rest step later ih =>
    rw [List.forall_mem_cons, List.map_cons, List.isChain_cons_cons]
    obtain ⟨active, started, applied⟩ | ⟨⟨idle, waits⟩, rfl⟩ := reconcile_cases step
    · have unlisted : t.bgpStarted = false →
          ∀ step ∈ ((intendedBGP, next) :: rest).takeWhile fun step => !step.1.shouldStart,
            step.1.neighbor = t.appliedBGP.neighbor := by
        intro idle
        have starts := active.resolve_left (by simp [idle])
        simp [starts]
      rw [and_iff_left unlisted, applied, merge_eq_iff]
      refine and_congr_right fun keeps => ?_
      rw [ih, applied, merge_eq_iff.mpr keeps, and_iff_left (by simp [started])]
    · simp only [List.takeWhile_cons, waits, Bool.not_false, if_true, List.forall_mem_cons, idle] at ih ⊢
      constructor
      · rintro ⟨same, rest⟩
        obtain ⟨chain, still⟩ := ih.mp rest
        rw [← same]
        exact ⟨⟨.refl, chain⟩, fun _ => ⟨rfl, still trivial⟩⟩
      · rintro ⟨⟨-, chain⟩, still⟩
        obtain ⟨same, still⟩ := still trivial
        exact ⟨same.symm, ih.mpr ⟨same ▸ chain, fun _ => still⟩⟩

def emptyTask (currentConfig : C) : BgpTask L V C := ⟨false, currentConfig, ⟨none, none, fun _ => none⟩⟩

theorem applied_follows_iff (ygot : Merge L V) (currentConfig : C)
    (run : List (OC.ProtocolBgp L V × BgpTask L V C))
    (reconciled : Reconciled ygot (emptyTask currentConfig) run) :
    (∀ step ∈ run, step.2.appliedBGP.neighbor = step.1.neighbor) ↔
      (run.map fun step => step.1.neighbor).IsChain (fun old new => new.Keeps old) ∧
      ∀ step ∈ run.takeWhile fun step => !step.1.shouldStart, step.1.neighbor = fun _ => none := by
  rw [reconciled.follows_iff]
  refine and_congr ?_ (forall_prop_of_true rfl)
  rw [List.isChain_cons]
  exact and_iff_right fun _ _ => nofun

def plainMerge : Merge L V where
  mergeStructInto dst src :=
    ⟨src.as.or dst.as, src.routerId.or dst.routerId, dst.neighbor.merged src.neighbor⟩
  neighbor _ _ := rfl

def intended (neighbor : Neighbors Unit Nat) : OC.ProtocolBgp Unit Nat :=
  ⟨some 64500, some "10.0.0.1", neighbor⟩

def firstPeers : Neighbors Unit Nat := fun address =>
  if address.text = "10.0.0.2" then some fun _ => some 64501 else none

def morePeers : Neighbors Unit Nat := fun address =>
  if address.text = "10.0.0.2" then some fun _ => some 64502
  else if address.text = "10.0.0.3" then some fun _ => some 64503
  else none

def afterStart : Option String × BgpTask Unit Nat Unit :=
  (emptyTask ()).reconcile plainMerge (intended firstPeers) ⟨(), false, ""⟩

def afterChange : Option String × BgpTask Unit Nat Unit :=
  afterStart.2.reconcile plainMerge (intended morePeers) ⟨(), false, ""⟩

theorem applied_follows_kept_peer : afterStart.2.appliedBGP.neighbor = firstPeers ∧
    afterChange.2.appliedBGP.neighbor = morePeers := by
  have first : (emptyTask ()).reconcile plainMerge (intended firstPeers) ⟨(), false, ""⟩ =
      (none, afterStart.2) := rfl
  have second : afterStart.2.reconcile plainMerge (intended morePeers) ⟨(), false, ""⟩ =
      (none, afterChange.2) := rfl
  have keeps : morePeers.Keeps firstPeers := by
    intro address settings found
    by_cases isPeer : address.text = "10.0.0.2"
    · exact ⟨fun _ => some 64502, by rw [morePeers, if_pos isPeer], fun _ _ => nofun⟩
    · rw [firstPeers, if_neg isPeer] at found
      cases found
  have follows := (applied_follows_iff plainMerge ()
    [(intended firstPeers, afterStart.2), (intended morePeers, afterChange.2)]
    (.cons first (.cons second .nil))).mpr
      ⟨.cons_cons keeps (.singleton _), by simp [intended, OC.ProtocolBgp.shouldStart]⟩
  exact ⟨follows _ List.mem_cons_self, follows _ (List.mem_cons_of_mem _ List.mem_cons_self)⟩

def afterRemoval : Option String × BgpTask Unit Nat Unit :=
  afterStart.2.reconcile plainMerge (intended fun _ => none) ⟨(), false, ""⟩

-- A neighbour that is configured no more is still recorded as applied.
theorem removed_peer_applied : afterStart.1 = none ∧ afterRemoval.1 = none ∧
    afterRemoval.2.appliedBGP.neighbor ⟨"10.0.0.2", by decide, by decide⟩ ≠ none :=
  ⟨rfl, rfl, nofun⟩

end Reconciling

end Lemming.Bgp
