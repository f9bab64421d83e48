import Lemming.Sysrib.Rib

set_option autoImplicit false

namespace Lemming.Sysrib

open Lemming.Shared

namespace SysRIB

open PrefixTree

variable {T : Type → Type} [PrefixTree T] (texts : Texts) (sr : SysRIB T)

def calls (query asked : String × IPNet) : Prop :=
  ∃ rib, sr.ni.lookup (sr.inputNI query.1) = some rib ∧
    ∃ cr ∈ findDeepestTags rib.tree query.2, cr.connected = none ∧
      ∃ nh ∈ cr.nextHops, ∃ address, texts.address nh.address = some address ∧
        asked = (nh.networkInstance, address.toIPNet)

def ResolvesForward : Prop :=
  CallGraph.Acyclic (sr.calls texts)

def targets : List (String × IPNet) :=
  sr.ni.entries.flatMap fun entry => (tags entry.2.tree).flatMap fun tag =>
    tag.2.nextHops.filterMap fun nh =>
      (texts.address nh.address).map fun address => (nh.networkInstance, address.toIPNet)

variable {texts sr}

theorem mem_targets {query asked : String × IPNet} (calling : sr.calls texts query asked) :
    asked ∈ sr.targets texts := by
  obtain ⟨rib, known, cr, best, -, nh, listed, address, parsed, rfl⟩ := calling
  obtain ⟨ip, stored, -⟩ := (mem_findDeepestTags _ _ _).mp best
  simp only [targets, List.mem_flatMap, List.mem_filterMap, Option.map_eq_some_iff]
  exact ⟨_, AList.mem_lookup_iff.mp known, _, stored, nh, listed, address, parsed, rfl⟩

section Asking

variable {query : String × IPNet} {routes : List Route}

theorem calls_of_entry (found : sr.entryForCIDR (sr.inputNI query.1) query.2 = .ok routes)
    {cr : Route} (listed : cr ∈ routes) (indirect : cr.connected = none) {nh : NextHopSummary}
    (hop : nh ∈ cr.nextHops) {address : Address} (parsed : texts.address nh.address = some address) :
    sr.calls texts query (nh.networkInstance, address.toIPNet) := by
  unfold entryForCIDR at found
  split at found
  · cases found
  · next rib known =>
    cases found
    exact ⟨rib, known, cr, listed, indirect, nh, hop, address, parsed, rfl⟩

end Asking

section Sufficiency

variable {depth : Nat} {query : String × IPNet}

theorem egressInterface_returns
    (each : ∀ asked, sr.calls texts query asked →
      (sr.egressInterface texts depth asked.1 asked.2).Returns) :
    (sr.egressInterface texts (depth + 1) query.1 query.2).Returns := by
  rw [egressInterface]
  split
  · next routes found =>
    apply Outcome.Returns.foldlM
    intro cr listed egressIfs
    unfold egressRoute
    split
    · exact .ok _
    · next indirect =>
      apply Outcome.Returns.foldlM
      intro nh hop egressIfs
      unfold addressToPrefix
      split
      · exact .error _
      · next address parsed =>
        have asked := each _ (calls_of_entry found listed indirect hop parsed)
        exact (asked.wrap _).bind fun _ => .ok _
  · exact .error _

theorem egressNexthops_returns {interfaces : InterfaceStates} {order : Shuffle RoutePreference}
    (each : ∀ asked, sr.calls texts query asked →
      (sr.egressNexthops texts interfaces order depth asked.1 asked.2).Returns) :
    (sr.egressNexthops texts interfaces order (depth + 1) query.1 query.2).Returns := by
  rw [egressNexthops]
  split
  · next routes found =>
    refine Outcome.Returns.bind (Outcome.Returns.foldlM ?_ _) fun _ => .ok _
    intro cr listed groups
    unfold resolveRoute
    split
    split
    · exact .ok _
    · next indirect =>
      refine Outcome.Returns.bind (Outcome.Returns.foldlM ?_ _) fun _ => .ok _
      intro nh hop egressNhs
      refine Outcome.Returns.bind ?_ fun _ => .ok _
      unfold resolveNexthop addressToPrefix
      split
      · exact .error _
      · next address parsed =>
        have asked := each _ (calls_of_entry found listed indirect hop parsed)
        refine (asked.wrap _).bind fun _ => ?_
        dsimp only
        split
        · exact .error _
        · exact .ok _
  · exact .error _

end Sufficiency

section Necessity

variable (texts sr) in
def NexthopsKnown : Prop :=
  ∀ entry ∈ sr.ni.entries, ∀ tag ∈ tags entry.2.tree, ∀ nh ∈ tag.2.nextHops,
    (texts.address nh.address).isSome ∧ (sr.ni.lookup (sr.inputNI nh.networkInstance)).isSome

variable {ni : String} {rib : NIRIB T} {ip : IPNet} {cr : Route} {nh : NextHopSummary}

theorem NexthopsKnown.found (known : sr.NexthopsKnown texts) (named : sr.ni.lookup ni = some rib)
    (best : cr ∈ findDeepestTags rib.tree ip) (hop : nh ∈ cr.nextHops) :
    (∃ address, texts.address nh.address = some address) ∧
      ∃ rib', sr.ni.lookup (sr.inputNI nh.networkInstance) = some rib' := by
  obtain ⟨net, stored, -⟩ := (mem_findDeepestTags _ _ _).mp best
  obtain ⟨parsed, named'⟩ := known ⟨ni, rib⟩ (AList.mem_lookup_iff.mp named) (net, cr) stored nh hop
  exact ⟨Option.isSome_iff_exists.mp parsed, Option.isSome_iff_exists.mp named'⟩

theorem egressInterface_unfailing (known : sr.NexthopsKnown texts) (depth : Nat)
    (named : sr.ni.lookup (sr.inputNI ni) = some rib) :
    (sr.egressInterface texts depth ni ip).Unfailing := by
  induction depth generalizing ni rib ip with
  | zero =>
    intro message same
    cases same
  | succ depth ih =>
    simp only [egressInterface, entryForCIDR, named]
    apply Outcome.Unfailing.foldlM
    intro cr best egressIfs
    unfold egressRoute
    split
    · intro message same
      cases same
    · apply Outcome.Unfailing.foldlM
      intro nh hop egressIfs
      obtain ⟨⟨address, parsed⟩, rib', named'⟩ := known.found named best hop
      simp only [addressToPrefix, parsed]
      refine ((ih named').wrap _).bind fun more message same => ?_
      cases same

theorem egressInterface_waits (known : sr.NexthopsKnown texts) {depth : Nat}
    {query asked : String × IPNet}
    (returned : (sr.egressInterface texts (depth + 1) query.1 query.2).Returns)
    (calling : sr.calls texts query asked) :
    (sr.egressInterface texts depth asked.1 asked.2).Returns := by
  obtain ⟨rib, named, cr, best, indirect, nh, hop, address, parsed, rfl⟩ := calling
  obtain ⟨ifs, isOk⟩ := returned.ok_of_unfailing (egressInterface_unfailing known (depth + 1) named)
  simp only [egressInterface, entryForCIDR, named] at isOk
  obtain ⟨before, after, round⟩ := Outcome.foldlM_eq_ok isOk cr best
  simp only [egressRoute, indirect] at round
  obtain ⟨before, after, one⟩ := Outcome.foldlM_eq_ok round nh hop
  simp only [addressToPrefix, parsed, Outcome.ok_bind] at one
  obtain ⟨more, wrapped, -⟩ := Outcome.bind_eq_ok.mp one
  exact Or.inl ⟨more, Outcome.wrap_eq_ok.mp wrapped⟩

end Necessity

section Bounded

variable {depth : Nat}

theorem ResolvesForward.egressInterface (forward : sr.ResolvesForward texts)
    (deep : (sr.targets texts).length < depth) (ni : String) (ip : IPNet) :
    (sr.egressInterface texts depth ni ip).Returns :=
  @CallGraph.returns_of_acyclic _ (sr.calls texts)
    (fun depth query => (sr.egressInterface texts depth query.1 query.2).Returns)
    forward _ (fun _ _ => mem_targets) (fun _ _ => egressInterface_returns) depth deep (ni, ip)

theorem ResolvesForward.egressNexthops (forward : sr.ResolvesForward texts)
    (deep : (sr.targets texts).length < depth) (interfaces : InterfaceStates)
    (order : Shuffle RoutePreference) (ni : String) (ip : IPNet) :
    (sr.egressNexthops texts interfaces order depth ni ip).Returns :=
  @CallGraph.returns_of_acyclic _ (sr.calls texts)
    (fun depth query => (sr.egressNexthops texts interfaces order depth query.1 query.2).Returns)
    forward _ (fun _ _ => mem_targets) (fun _ _ => egressNexthops_returns) depth deep (ni, ip)

end Bounded

def Terminates (texts : Texts) (sr : SysRIB T) : Prop :=
  ∀ ni ip,
    (∃ depth, (sr.egressInterface texts depth ni ip).Returns) ∧
      ∀ interfaces order, ∃ depth, (sr.egressNexthops texts interfaces order depth ni ip).Returns

theorem terminates_iff (texts : Texts) (sr : SysRIB T) (known : sr.NexthopsKnown texts) :
    sr.Terminates texts ↔ sr.ResolvesForward texts := by
  constructor
  · intro terminates query cycle
    obtain ⟨⟨depth, returned⟩, -⟩ := terminates query.1 query.2
    exact @CallGraph.not_returns_of_cycle _ (sr.calls texts)
      (fun depth query => (sr.egressInterface texts depth query.1 query.2).Returns)
      (fun _ => by simp [SysRIB.egressInterface, Outcome.Returns])
      (fun _ _ _ => egressInterface_waits known) depth query cycle returned
  · intro forward ni ip
    exact ⟨⟨_, forward.egressInterface (Nat.lt_succ_self _) ni ip⟩, fun interfaces order =>
      ⟨_, forward.egressNexthops (Nat.lt_succ_self _) interfaces order ni ip⟩⟩

end SysRIB

section Samples

def gateway : Address := .v4 #v[10, 0, 0, 1]

def remote : IPNet := (Address.v4 #v[20, 0, 0, 0]).masked 8

def sampleTexts : Texts :=
  .ofTables [("10.0.0.1", gateway)]
    [("10.0.0.0/8", gateway.masked 8), ("20.0.0.0/8", remote)]

def viaGateway (pfx : String) : Route :=
  ⟨pfx, none, [⟨1, "10.0.0.1", defaultNetworkInstance⟩], ⟨1, 0⟩⟩

def ethernet : Interface := ⟨"eth0", 1, 0⟩

def lineRib : SysRIB TagList where
  ni := AList.singleton defaultNetworkInstance
    ⟨[(gateway.masked 8, ⟨"10.0.0.0/8", some ethernet, [], ⟨0, 0⟩⟩),
      (remote, viaGateway "20.0.0.0/8")]⟩
  defaultNI := defaultNetworkInstance
  guePolicies := []

theorem lineRib_forward : lineRib.ResolvesForward sampleTexts := by
  have last : ∀ query asked, lineRib.calls sampleTexts query asked →
      asked = (defaultNetworkInstance, gateway.toIPNet) := by
    intro query asked calling
    have member := SysRIB.mem_targets calling
    rw [show lineRib.targets sampleTexts = [(defaultNetworkInstance, gateway.toIPNet)] by rfl]
      at member
    exact List.mem_singleton.mp member
  have ends : ∀ asked,
      ¬ lineRib.calls sampleTexts (defaultNetworkInstance, gateway.toIPNet) asked := by
    rintro asked ⟨rib, named, cr, best, indirect, -⟩
    cases named
    have direct : cr = ⟨"10.0.0.0/8", some ethernet, [], ⟨0, 0⟩⟩ := List.mem_singleton.mp best
    rw [direct] at indirect
    cases indirect
  intro query cycle
  obtain ⟨first, -, calling⟩ := Relation.TransGen.tail'_iff.mp cycle
  obtain ⟨second, calling', -⟩ := Relation.TransGen.head'_iff.mp cycle
  rw [last _ _ calling] at calling'
  exact ends _ calling'

theorem lineRib_terminates : lineRib.NexthopsKnown sampleTexts ∧ lineRib.Terminates sampleTexts := by
  have known : lineRib.NexthopsKnown sampleTexts := by
    unfold SysRIB.NexthopsKnown
    decide +kernel
  exact ⟨known, (SysRIB.terminates_iff sampleTexts lineRib known).mpr lineRib_forward⟩

def loopRib : SysRIB TagList where
  ni := AList.singleton defaultNetworkInstance ⟨[(gateway.masked 8, viaGateway "10.0.0.0/8")]⟩
  defaultNI := defaultNetworkInstance
  guePolicies := []

theorem loopRib_diverges (depth : Nat) (ip : IPNet)
    (found : loopRib.entryForCIDR defaultNetworkInstance ip = .ok [viaGateway "10.0.0.0/8"]) :
    loopRib.egressInterface sampleTexts depth defaultNetworkInstance ip = .diverge ∧
      ∀ interfaces order,
        loopRib.egressNexthops sampleTexts interfaces order depth defaultNetworkInstance ip =
          .diverge := by
  have named : loopRib.inputNI defaultNetworkInstance = defaultNetworkInstance := rfl
  have parsed : sampleTexts.address "10.0.0.1" = some gateway := rfl
  have again : loopRib.entryForCIDR defaultNetworkInstance gateway.toIPNet =
      .ok [viaGateway "10.0.0.0/8"] := rfl
  induction depth generalizing ip with
  | zero => exact ⟨rfl, fun _ _ => rfl⟩
  | succ depth ih =>
    obtain ⟨interface, nexthops⟩ := ih gateway.toIPNet again
    constructor
    · simp only [SysRIB.egressInterface, named, found, List.foldlM_cons, SysRIB.egressRoute,
        viaGateway, addressToPrefix, parsed, Outcome.ok_bind, interface, Outcome.wrap_diverge,
        Outcome.diverge_bind]
    · intro interfaces order
      simp only [SysRIB.egressNexthops, named, found, List.foldlM_cons, SysRIB.resolveRoute,
        viaGateway, SysRIB.resolveNexthop, addressToPrefix, parsed, Outcome.ok_bind,
        nexthops interfaces order, Outcome.wrap_diverge, Outcome.diverge_bind]

theorem route_over_itself_diverges :
    (newSysRIB TagList).setRoute sampleTexts defaultNetworkInstance (viaGateway "10.0.0.0/8") false =
        .ok loopRib ∧
      ∀ depth,
        loopRib.egressInterface sampleTexts depth defaultNetworkInstance (gateway.masked 8) =
            .diverge ∧
          ∀ interfaces order,
            loopRib.egressNexthops sampleTexts interfaces order depth defaultNetworkInstance
              (gateway.masked 8) = .diverge :=
  ⟨rfl, fun depth => loopRib_diverges depth _ rfl⟩

end Samples

end Lemming.Sysrib
