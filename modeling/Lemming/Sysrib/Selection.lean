import Lemming.Sysrib.Termination

set_option autoImplicit false

namespace Lemming.Sysrib

open Lemming.Shared

namespace RoutePreference

variable (a : RoutePreference)

theorem less_iff (b : RoutePreference) :
    a.less b = true ↔ a.adminDistance < b.adminDistance ∨
      a.adminDistance = b.adminDistance ∧ a.metric < b.metric := by
  simp [less]

theorem less_total {a b : RoutePreference} (first : a.less b = false) (second : b.less a = false) :
    a = b := by
  rw [Bool.eq_false_iff, Ne, less_iff, not_or, not_and] at first second
  have distance : a.adminDistance = b.adminDistance :=
    UInt8.le_antisymm (UInt8.not_lt.mp second.1) (UInt8.not_lt.mp first.1)
  have metric : a.metric = b.metric :=
    UInt32.le_antisymm (UInt32.not_lt.mp (second.2 distance.symm))
      (UInt32.not_lt.mp (first.2 distance))
  cases a
  cases b
  cases distance
  cases metric
  rfl

def rank : Nat :=
  a.adminDistance.toNat * 2 ^ 32 + a.metric.toNat

theorem less_iff_rank (b : RoutePreference) : a.less b = true ↔ a.rank < b.rank := by
  have small := a.metric.toNat_lt
  have small' := b.metric.toNat_lt
  rw [less_iff, UInt8.lt_iff_toNat_lt, UInt32.lt_iff_toNat_lt, ← UInt8.toNat_inj, rank, rank]
  omega

theorem less_eq_false (b : RoutePreference) : a.less b = false ↔ b.rank ≤ a.rank := by
  rw [Bool.eq_false_iff, Ne, less_iff_rank]
  exact Nat.not_lt

instance : Std.Total fun a b : RoutePreference => b.less a = false :=
  ⟨fun a b => by simpa only [less_eq_false] using Nat.le_total a.rank b.rank⟩

instance : IsTrans RoutePreference fun a b => b.less a = false :=
  ⟨fun a b c => by simpa only [less_eq_false] using Nat.le_trans⟩

end RoutePreference

def IsBest (group : RoutePreference → ResolvedNexthop → Prop) (nhs : Finset ResolvedNexthop) : Prop :=
  (∃ pref, (∀ rnh, rnh ∈ nhs ↔ group pref rnh) ∧ nhs.Nonempty ∧
    ∀ other, other.less pref = true → ∀ rnh, ¬ group other rnh) ∨
  (nhs = ∅ ∧ ∀ pref rnh, ¬ group pref rnh)

theorem IsBest.unique {group : RoutePreference → ResolvedNexthop → Prop}
    {nhs others : Finset ResolvedNexthop} (best : IsBest group nhs) (best' : IsBest group others) :
    nhs = others := by
  rcases best with ⟨pref, members, ⟨rnh, member⟩, first⟩ | ⟨rfl, none⟩
  · rcases best' with ⟨pref', members', ⟨rnh', member'⟩, first'⟩ | ⟨rfl, none⟩
    · have notAfter : pref'.less pref = false := by
        by_contra before
        exact first pref' (by simpa using before) rnh' ((members' rnh').mp member')
      have notBefore : pref.less pref' = false := by
        by_contra before
        exact first' pref (by simpa using before) rnh ((members rnh).mp member)
      cases RoutePreference.less_total notBefore notAfter
      ext rnh
      rw [members, members']
    · exact absurd ((members rnh).mp member) (none pref rnh)
  · rcases best' with ⟨pref', members', ⟨rnh', member'⟩, first'⟩ | ⟨rfl, -⟩
    · exact absurd ((members' rnh').mp member') (none pref' rnh')
    · rfl

def InGroup (via : Route → ResolvedNexthop → Prop) (routes : List Route) (pref : RoutePreference)
    (rnh : ResolvedNexthop) : Prop :=
  ∃ cr ∈ routes, cr.routePref = pref ∧ via cr rnh

theorem InGroup.congr {via via' : Route → ResolvedNexthop → Prop} {routes routes' : List Route}
    (same : ∀ cr, cr ∈ routes ↔ cr ∈ routes') (brings : ∀ cr ∈ routes, ∀ rnh, via cr rnh ↔ via' cr rnh) :
    InGroup via routes = InGroup via' routes' := by
  funext pref rnh
  refine propext (exists_congr fun cr => ?_)
  rw [same cr]
  refine and_congr_right fun listed => and_congr_right fun _ => ?_
  exact brings cr ((same cr).mpr listed) rnh

structure Gathered (via : Route → ResolvedNexthop → Prop) (done : List Route) (groups : Groups) :
    Prop where
  present : ∀ cr ∈ done, cr.routePref ∈ groups
  members : ∀ pref nhs first, groups.lookup pref = some (nhs, first) → ∀ rnh,
    rnh ∈ nhs ↔ InGroup via done pref rnh
  keyed : ∀ pref nhs first, groups.lookup pref = some (nhs, first) → first.routePref = pref

namespace Gathered

variable {via : Route → ResolvedNexthop → Prop} {done : List Route} {groups : Groups}

theorem empty : Gathered via [] ∅ where
  present := by simp
  members := by rintro _ _ _ ⟨⟩
  keyed := by rintro _ _ _ ⟨⟩

section

variable (gathered : Gathered via done groups)
include gathered

theorem insert {cr first : Route}
    {nhs after : Finset ResolvedNexthop}
    (before : (groups.lookup cr.routePref).getD (∅, cr) = (nhs, first))
    (joined : ∀ rnh, rnh ∈ after ↔ rnh ∈ nhs ∨ via cr rnh) :
    Gathered via (done ++ [cr]) (AList.insert cr.routePref (after, first) groups) where
  present := by
    intro other listed
    rw [AList.mem_insert]
    rcases List.mem_append.mp listed with listed | listed
    · exact Or.inr (gathered.present other listed)
    · exact Or.inl (by rw [List.mem_singleton.mp listed])
  members := by
    intro pref others first' found rnh
    have split : InGroup via (done ++ [cr]) pref rnh ↔
        InGroup via done pref rnh ∨ cr.routePref = pref ∧ via cr rnh := by
      simp only [InGroup, List.mem_append, List.mem_singleton, or_and_right, exists_or, exists_eq_left]
    rw [split]
    by_cases same : pref = cr.routePref
    · subst same
      rw [AList.lookup_insert] at found
      cases found
      have earlier : rnh ∈ nhs ↔ InGroup via done cr.routePref rnh := by
        cases known : groups.lookup cr.routePref with
        | none =>
          rw [known] at before
          cases before
          refine iff_of_false (Finset.notMem_empty rnh) ?_
          rintro ⟨other, listed, same, -⟩
          exact AList.lookup_eq_none.mp known (same ▸ gathered.present other listed)
        | some entry =>
          rw [known] at before
          cases before
          exact gathered.members _ _ _ known rnh
      rw [joined, earlier]
      simp
    · rw [AList.lookup_insert_ne same] at found
      rw [gathered.members _ _ _ found rnh]
      simp [Ne.symm same]
  keyed := by
    intro pref others first' found
    by_cases same : pref = cr.routePref
    · subst same
      rw [AList.lookup_insert] at found
      cases found
      cases known : groups.lookup cr.routePref with
      | none =>
        rw [known] at before
        cases before
        rfl
      | some entry =>
        rw [known] at before
        cases before
        exact gathered.keyed _ _ _ known
    · rw [AList.lookup_insert_ne same] at found
      exact gathered.keyed _ _ _ found

theorem group_of_lookup {pref : RoutePreference}
    {rnh : ResolvedNexthop} (inGroup : InGroup via done pref rnh) :
    pref ∈ groups ∧ SysRIB.groupAt groups pref ≠ none := by
  obtain ⟨cr, listed, same, -⟩ := id inGroup
  have there : pref ∈ groups := same ▸ gathered.present cr listed
  refine ⟨there, fun empty => ?_⟩
  obtain ⟨⟨nhs, first⟩, found⟩ := Option.isSome_iff_exists.mp (AList.lookup_isSome.mpr there)
  have member := (gathered.members _ _ _ found rnh).mpr inGroup
  simp only [SysRIB.groupAt, found, ite_eq_left_iff, reduceCtorEq, imp_false, not_not] at empty
  rw [empty] at member
  exact absurd member (Finset.notMem_empty rnh)

theorem groupAt_eq_some {pref : RoutePreference}
    {result : Finset ResolvedNexthop × Option Route}
    (taken : SysRIB.groupAt groups pref = some result) :
    result.1.Nonempty ∧ (∀ rnh, rnh ∈ result.1 ↔ InGroup via done pref rnh) ∧
      ∀ route ∈ result.2, route.routePref = pref := by
  unfold SysRIB.groupAt at taken
  split at taken
  · next nhs first found =>
    split at taken
    · cases taken
    · next some =>
      cases taken
      refine ⟨Finset.nonempty_iff_ne_empty.mpr some, gathered.members _ _ _ found, ?_⟩
      rintro _ ⟨⟩
      exact gathered.keyed _ _ _ found
  · cases taken

theorem selected {order : Shuffle RoutePreference}
    {nhs : Finset ResolvedNexthop} {route : Route}
    (chosen : SysRIB.selectGroup order groups = (nhs, some route)) (rnh : ResolvedNexthop) :
    rnh ∈ nhs ↔ InGroup via done route.routePref rnh := by
  unfold SysRIB.selectGroup at chosen
  cases taken : (SysRIB.sortPrefs (order.arrange groups.keys)).findSome? (SysRIB.groupAt groups) with
  | none =>
    rw [taken] at chosen
    cases chosen
  | some result =>
    rw [taken] at chosen
    cases chosen
    obtain ⟨pref, -, atPref⟩ := List.exists_of_findSome?_eq_some taken
    obtain ⟨-, members, keyed⟩ := gathered.groupAt_eq_some atPref
    rw [members, keyed route rfl]

theorem select (order : Shuffle RoutePreference) :
    IsBest (InGroup via done)
      (SysRIB.selectGroup order groups).1 := by
  have sorted : (SysRIB.sortPrefs (order.arrange groups.keys)).Pairwise
      fun a b => b.less a = false := List.pairwise_insertionSort _ _
  have listed : ∀ pref ∈ groups, pref ∈ SysRIB.sortPrefs (order.arrange groups.keys) := by
    intro pref there
    rw [SysRIB.sortPrefs, List.mem_insertionSort, Shuffle.mem_arrange]
    exact AList.mem_keys.mp there
  unfold SysRIB.selectGroup
  generalize SysRIB.sortPrefs (order.arrange groups.keys) = prefs at sorted listed
  cases chosen : prefs.findSome? (SysRIB.groupAt groups) with
  | none =>
    refine Or.inr ⟨rfl, fun pref rnh inGroup => ?_⟩
    obtain ⟨there, some⟩ := gathered.group_of_lookup inGroup
    exact some (List.findSome?_eq_none_iff.mp chosen pref (listed pref there))
  | some result =>
    obtain ⟨before, pref, after, rfl, taken, skipped⟩ := List.findSome?_eq_some_iff.mp chosen
    obtain ⟨nonempty, members, -⟩ := gathered.groupAt_eq_some taken
    refine Or.inl ⟨pref, members, nonempty, fun other better rnh inGroup => ?_⟩
    obtain ⟨there, some⟩ := gathered.group_of_lookup inGroup
    -- A better preference stands before the chosen one and was passed over.
    rcases List.mem_append.mp (listed other there) with earlier | later
    · exact some (skipped other earlier)
    · have kept := (List.pairwise_append.mp sorted).2.1
      rcases List.mem_cons.mp later with rfl | later
      · rw [RoutePreference.less_iff_rank] at better
        exact absurd better (Nat.lt_irrefl _)
      · rw [(List.pairwise_cons.mp kept).1 other later] at better
        cases better

end

end Gathered

namespace SysRIB

open PrefixTree

variable {T : Type → Type} [PrefixTree T]

section Reference

variable (texts : Texts) (sr : SysRIB T) (interfaces : InterfaceStates)

def Contributes (ni : String) (ip : IPNet) (resolved : NextHopSummary → Finset ResolvedNexthop)
    (cr : Route) (rnh : ResolvedNexthop) : Prop :=
  (∃ port, cr.connected = some port ∧ interfaces port = true ∧
    rnh = connectedNexthop texts (sr.inputNI ni) ip port) ∨
  (cr.connected = none ∧ ∃ nh ∈ cr.nextHops, ∃ nhop, texts.address nh.address = some nhop ∧
    ∃ inner ∈ resolved nh, rnh = { inner with gueHeaders := sr.encapHeaders ip cr nhop })

inductive Resolves : String → IPNet → Finset ResolvedNexthop → Prop
  | best {ni : String} {ip : IPNet} {rib : NIRIB T} {nhs : Finset ResolvedNexthop}
      (resolved : NextHopSummary → Finset ResolvedNexthop)
      (named : sr.ni.lookup (sr.inputNI ni) = some rib)
      (inner : ∀ cr ∈ findDeepestTags rib.tree ip, cr.connected = none → ∀ nh ∈ cr.nextHops,
        ∀ nhop, texts.address nh.address = some nhop →
          Resolves nh.networkInstance nhop.toIPNet (resolved nh))
      (isBest : IsBest (InGroup (sr.Contributes texts interfaces ni ip resolved)
        (findDeepestTags rib.tree ip)) nhs) :
      Resolves ni ip nhs

end Reference

variable {texts : Texts} {sr : SysRIB T} {interfaces : InterfaceStates} {ni : String} {ip : IPNet}

theorem Contributes.congr {resolved resolved' : NextHopSummary → Finset ResolvedNexthop} {cr : Route}
    (same : cr.connected = none → ∀ nh ∈ cr.nextHops, ∀ nhop, texts.address nh.address = some nhop →
      resolved nh = resolved' nh) (rnh : ResolvedNexthop) :
    sr.Contributes texts interfaces ni ip resolved cr rnh ↔
      sr.Contributes texts interfaces ni ip resolved' cr rnh := by
  refine or_congr Iff.rfl (and_congr_right fun indirect => ?_)
  constructor
  · rintro ⟨nh, hop, nhop, parsed, inner, member, rfl⟩
    rw [same indirect nh hop nhop parsed] at member
    exact ⟨nh, hop, nhop, parsed, inner, member, rfl⟩
  · rintro ⟨nh, hop, nhop, parsed, inner, member, rfl⟩
    rw [← same indirect nh hop nhop parsed] at member
    exact ⟨nh, hop, nhop, parsed, inner, member, rfl⟩

theorem Resolves.unique {nhs others : Finset ResolvedNexthop}
    (resolves : sr.Resolves texts interfaces ni ip nhs)
    (resolves' : sr.Resolves texts interfaces ni ip others) : nhs = others := by
  induction resolves generalizing others with
  | best resolved named inner isBest ih =>
    cases resolves' with
    | best resolved' named' inner' isBest' =>
      cases named.symm.trans named'
      apply isBest.unique
      rw [InGroup.congr (fun _ => Iff.rfl) fun cr best => Contributes.congr fun indirect nh hop nhop parsed =>
        ih cr best indirect nh hop nhop parsed (inner' cr best indirect nh hop nhop parsed)]
      exact isBest'

section Loops

variable {recur : String → IPNet → Outcome (Finset ResolvedNexthop × Option Route)} {cr : Route}
  {nh : NextHopSummary}

theorem resolveNexthop_eq_ok {more : Finset ResolvedNexthop}
    (isOk : sr.resolveNexthop texts recur ip cr nh = .ok more) :
    ∃ nhop nhs route, texts.address nh.address = some nhop ∧
      recur nh.networkInstance nhop.toIPNet = .ok (nhs, route) ∧
      (∀ rnh ∈ nhs, rnh.hasGUE = false) ∧
      more = nhs.image fun rnh => { rnh with gueHeaders := sr.encapHeaders ip cr nhop } := by
  unfold resolveNexthop at isOk
  obtain ⟨nhop, parsed, isOk⟩ := Outcome.bind_eq_ok.mp isOk
  obtain ⟨⟨nhs, route⟩, wrapped, isOk⟩ := Outcome.bind_eq_ok.mp isOk
  have readable : texts.address nh.address = some nhop := by
    unfold addressToPrefix at parsed
    split at parsed
    · cases parsed
    · next found =>
      cases parsed
      exact found
  dsimp only at isOk
  split at isOk
  · cases isOk
  · next plain =>
    cases isOk
    refine ⟨nhop, nhs, route, readable, Outcome.wrap_eq_ok.mp wrapped, fun rnh member => ?_, rfl⟩
    by_contra encapsulated
    exact plain ⟨rnh, member, by simpa using encapsulated⟩

variable (texts recur) in
def answer (nh : NextHopSummary) : Finset ResolvedNexthop :=
  match texts.address nh.address with
  | none => ∅
  | some nhop =>
    match recur nh.networkInstance nhop.toIPNet with
    | .ok (nhs, _) => nhs
    | _ => ∅

theorem mem_resolveNexthops {hops : List NextHopSummary} {start after : Finset ResolvedNexthop}
    (isOk : hops.foldlM (fun egressNhs nh => do
      let more ← sr.resolveNexthop texts recur ip cr nh
      return egressNhs ∪ more) start = .ok after) (rnh : ResolvedNexthop) :
    rnh ∈ after ↔ rnh ∈ start ∨ ∃ nh ∈ hops, ∃ nhop, texts.address nh.address = some nhop ∧
      ∃ inner ∈ answer texts recur nh,
        rnh = { inner with gueHeaders := sr.encapHeaders ip cr nhop } := by
  induction hops generalizing start with
  | nil =>
    cases isOk
    simp
  | cons nh hops ih =>
    rw [List.foldlM_cons] at isOk
    obtain ⟨next, first, rest⟩ := Outcome.bind_eq_ok.mp isOk
    obtain ⟨more, isMore, added⟩ := Outcome.bind_eq_ok.mp first
    cases added
    obtain ⟨nhop, nhs, route, parsed, found, -, rfl⟩ := resolveNexthop_eq_ok isMore
    have answered : answer texts recur nh = nhs := by
      simp only [answer, parsed, found]
    rw [ih rest, Finset.mem_union, Finset.mem_image, or_assoc]
    simp only [List.mem_cons, exists_eq_or_imp, parsed, Option.some.injEq, exists_eq_left', answered,
      @eq_comm _ rnh]

theorem resolveRoute_gathered {done : List Route} {groups next : Groups}
    (gathered : Gathered (sr.Contributes texts interfaces ni ip (answer texts recur)) done groups)
    (isOk : sr.resolveRoute texts interfaces recur (sr.inputNI ni) ip groups cr = .ok next) :
    Gathered (sr.Contributes texts interfaces ni ip (answer texts recur)) (done ++ [cr]) next := by
  unfold resolveRoute at isOk
  split at isOk
  next nhs first before =>
  split at isOk
  · next port connected =>
    cases isOk
    apply gathered.insert before
    intro rnh
    simp only [Contributes, connected, reduceCtorEq, false_and, or_false, Option.some.injEq,
      exists_eq_left']
    split
    · next enabled => simp [enabled, or_comm]
    · next disabled => simp [disabled]
  · next indirect =>
    obtain ⟨after, joined, added⟩ := Outcome.bind_eq_ok.mp isOk
    cases added
    apply gathered.insert before
    intro rnh
    rw [mem_resolveNexthops joined]
    simp only [Contributes, indirect, reduceCtorEq, false_and, exists_false, false_or, true_and]

theorem resolveNexthop_of_round {groups next : Groups} {name : String}
    (isOk : sr.resolveRoute texts interfaces recur name ip groups cr = .ok next)
    (indirect : cr.connected = none) (hop : nh ∈ cr.nextHops) :
    ∃ more, sr.resolveNexthop texts recur ip cr nh = .ok more := by
  unfold resolveRoute at isOk
  simp only [indirect] at isOk
  obtain ⟨after, joined, -⟩ := Outcome.bind_eq_ok.mp isOk
  obtain ⟨before, after, one⟩ := Outcome.foldlM_eq_ok joined nh hop
  obtain ⟨more, found, -⟩ := Outcome.bind_eq_ok.mp one
  exact ⟨more, found⟩

theorem resolveRoute_ok {name : String}
    (hops : cr.connected = none → ∀ nh ∈ cr.nextHops,
      ∃ more, sr.resolveNexthop texts recur ip cr nh = .ok more) (groups : Groups) :
    ∃ next, sr.resolveRoute texts interfaces recur name ip groups cr = .ok next := by
  unfold resolveRoute
  split
  split
  · exact ⟨_, rfl⟩
  · next indirect =>
    have joins : ∀ nh ∈ cr.nextHops, ∀ acc : Finset ResolvedNexthop, ∃ next,
        (do
          let more ← sr.resolveNexthop texts recur ip cr nh
          return acc ∪ more) = Outcome.ok next := by
      intro nh hop acc
      obtain ⟨more, found⟩ := hops indirect nh hop
      rw [found]
      exact ⟨_, rfl⟩
    obtain ⟨after, joined⟩ := Outcome.Yields.foldlM joins _
    rw [joined]
    exact ⟨_, rfl⟩

end Loops

section Soundness

variable {order : Shuffle RoutePreference} {depth : Nat} {nhs : Finset ResolvedNexthop}
  {route : Option Route}

theorem egressNexthops_eq_ok
    (isOk : sr.egressNexthops texts interfaces order (depth + 1) ni ip = .ok (nhs, route)) :
    ∃ rib groups, sr.ni.lookup (sr.inputNI ni) = some rib ∧
      (findDeepestTags rib.tree ip).foldlM (sr.resolveRoute texts interfaces
        (sr.egressNexthops texts interfaces order depth) (sr.inputNI ni) ip) ∅ = .ok groups ∧
      selectGroup order groups = (nhs, route) := by
  rw [egressNexthops, entryForCIDR] at isOk
  cases named : sr.ni.lookup (sr.inputNI ni) with
  | none => simp [named] at isOk
  | some rib =>
    rw [named] at isOk
    obtain ⟨groups, gathered, selected⟩ := Outcome.bind_eq_ok.mp isOk
    exact ⟨rib, groups, rfl, gathered, Outcome.ok.inj selected⟩

theorem egressNexthops_gathered
    (isOk : sr.egressNexthops texts interfaces order (depth + 1) ni ip = .ok (nhs, route)) :
    ∃ rib groups resolved, sr.ni.lookup (sr.inputNI ni) = some rib ∧
      Gathered (sr.Contributes texts interfaces ni ip resolved) (findDeepestTags rib.tree ip) groups ∧
      selectGroup order groups = (nhs, route) ∧
      ∀ cr ∈ findDeepestTags rib.tree ip, cr.connected = none → ∀ nh ∈ cr.nextHops,
        ∀ nhop, texts.address nh.address = some nhop → ∃ route',
          sr.egressNexthops texts interfaces order depth nh.networkInstance nhop.toIPNet =
            .ok (resolved nh, route') := by
  obtain ⟨rib, groups, named, loop, selected⟩ := egressNexthops_eq_ok isOk
  have gathered := Outcome.foldlM_history
    (fun _ _ _ _ gathered round => resolveRoute_gathered gathered round) .empty loop
  refine ⟨rib, groups, _, named, gathered, selected, fun cr best indirect nh hop nhop parsed => ?_⟩
  obtain ⟨before, after, round⟩ := Outcome.foldlM_eq_ok loop cr best
  obtain ⟨more, found⟩ := resolveNexthop_of_round round indirect hop
  obtain ⟨nhop', nhs', route', parsed', inner, -⟩ := resolveNexthop_eq_ok found
  cases parsed.symm.trans parsed'
  refine ⟨route', ?_⟩
  simp only [answer, parsed, inner]

theorem egressNexthops_resolves
    (isOk : sr.egressNexthops texts interfaces order depth ni ip = .ok (nhs, route)) :
    sr.Resolves texts interfaces ni ip nhs := by
  induction depth generalizing ni ip nhs route with
  | zero => cases isOk
  | succ depth ih =>
    obtain ⟨rib, groups, resolved, named, gathered, selected, inner⟩ := egressNexthops_gathered isOk
    have isBest := gathered.select order
    rw [selected] at isBest
    refine .best resolved named (fun cr best indirect nh hop nhop parsed => ?_) isBest
    obtain ⟨route', isOk'⟩ := inner cr best indirect nh hop nhop parsed
    exact ih isOk'

end Soundness

section Order

structure Reordered (sr sr' : SysRIB T) : Prop where
  defaultNI : sr'.defaultNI = sr.defaultNI
  guePolicies : sr'.guePolicies = sr.guePolicies
  tags : ∀ ni, Option.Rel (fun rib rib' => (tags rib.tree).Perm (tags rib'.tree)) (sr.ni.lookup ni) (sr'.ni.lookup ni)

namespace Reordered

variable {sr' : SysRIB T} (reordered : sr.Reordered sr')
include reordered

theorem inputNI (ni : String) : sr'.inputNI ni = sr.inputNI ni := by
  rw [SysRIB.inputNI, SysRIB.inputNI, reordered.defaultNI]

theorem lookup {rib : NIRIB T} (named : sr.ni.lookup (sr.inputNI ni) = some rib) :
    ∃ rib', sr'.ni.lookup (sr'.inputNI ni) = some rib' ∧
      ∀ ip cr, cr ∈ findDeepestTags rib.tree ip ↔ cr ∈ findDeepestTags rib'.tree ip := by
  have related := reordered.tags (sr.inputNI ni)
  rw [named] at related
  rw [reordered.inputNI]
  cases found : sr'.ni.lookup (sr.inputNI ni) with
  | none => simp [found] at related
  | some rib' =>
    rw [found, Option.rel_some_some] at related
    refine ⟨rib', rfl, fun ip cr => ?_⟩
    rw [mem_findDeepestTags, mem_findDeepestTags]
    exact exists_congr fun net => and_congr related.mem_iff (by rw [deepest_perm related])

theorem encapHeaders (ip : IPNet) (cr : Route) (nhop : Address) :
    sr'.encapHeaders ip cr nhop = sr.encapHeaders ip cr nhop := by
  simp only [SysRIB.encapHeaders, getGUEHeader, guePolicyFor, reordered.guePolicies]

theorem contributes (resolved : NextHopSummary → Finset ResolvedNexthop) (cr : Route)
    (rnh : ResolvedNexthop) :
    sr.Contributes texts interfaces ni ip resolved cr rnh ↔
      sr'.Contributes texts interfaces ni ip resolved cr rnh := by
  simp only [Contributes, reordered.inputNI, reordered.encapHeaders]

theorem resolves {nhs : Finset ResolvedNexthop} (resolves : sr.Resolves texts interfaces ni ip nhs) :
    sr'.Resolves texts interfaces ni ip nhs := by
  induction resolves with
  | best resolved named inner isBest ih =>
    obtain ⟨rib', named', same⟩ := reordered.lookup named
    refine .best resolved named' (fun cr best => ih cr ((same _ cr).mpr best)) ?_
    rw [← InGroup.congr (same _) fun cr _ rnh => reordered.contributes resolved cr rnh]
    exact isBest

theorem egressNexthops_ok {order order' : Shuffle RoutePreference} {depth : Nat}
    {nhs : Finset ResolvedNexthop} {route : Option Route}
    (isOk : sr.egressNexthops texts interfaces order depth ni ip = .ok (nhs, route)) :
    ∃ route', sr'.egressNexthops texts interfaces order' depth ni ip = .ok (nhs, route') := by
  induction depth generalizing ni ip nhs route with
  | zero => cases isOk
  | succ depth ih =>
    obtain ⟨rib, groups, named, loop, -⟩ := egressNexthops_eq_ok isOk
    obtain ⟨rib', named', same⟩ := reordered.lookup named
    have hops : ∀ cr ∈ findDeepestTags rib'.tree ip, cr.connected = none → ∀ nh ∈ cr.nextHops,
        ∃ more, sr'.resolveNexthop texts (sr'.egressNexthops texts interfaces order' depth) ip cr nh =
          .ok more := by
      intro cr best indirect nh hop
      obtain ⟨before, after, round⟩ := Outcome.foldlM_eq_ok loop cr ((same ip cr).mpr best)
      obtain ⟨more, found⟩ := resolveNexthop_of_round round indirect hop
      obtain ⟨nhop, nhs', route, parsed, inner, plain, -⟩ := resolveNexthop_eq_ok found
      obtain ⟨route', inner'⟩ := ih inner
      have none : ¬ ∃ rnh ∈ nhs', rnh.hasGUE = true := by
        rintro ⟨rnh, member, encapsulated⟩
        rw [plain rnh member] at encapsulated
        cases encapsulated
      simp only [resolveNexthop, addressToPrefix, parsed, inner', Outcome.ok_bind, Outcome.wrap_ok,
        if_neg none]
      exact ⟨_, rfl⟩
    have rounds : ∀ cr ∈ findDeepestTags rib'.tree ip, ∀ groups, ∃ next,
        sr'.resolveRoute texts interfaces (sr'.egressNexthops texts interfaces order' depth)
          (sr'.inputNI ni) ip groups cr = .ok next :=
      fun cr best groups => resolveRoute_ok (hops cr best) groups
    obtain ⟨groups', loop'⟩ := Outcome.Yields.foldlM rounds ∅
    have isOk' : sr'.egressNexthops texts interfaces order' (depth + 1) ni ip =
        .ok (selectGroup order' groups') := by
      simp only [egressNexthops, entryForCIDR, named', loop']
      rfl
    have same : (selectGroup order' groups').1 = nhs :=
      (egressNexthops_resolves isOk').unique (reordered.resolves (egressNexthops_resolves isOk))
    refine ⟨(selectGroup order' groups').2, ?_⟩
    rw [isOk', ← same]

end Reordered

end Order

theorem egressNexthops_reference (texts : Texts) (sr : SysRIB T) (interfaces : InterfaceStates)
    (order : Shuffle RoutePreference) (ni : String) (ip : IPNet) (forward : sr.ResolvesForward texts)
    {depth : Nat} (deep : (sr.targets texts).length < depth) :
    (sr.egressNexthops texts interfaces order depth ni ip).Returns ∧
      ∀ nhs route, sr.egressNexthops texts interfaces order depth ni ip = .ok (nhs, route) →
        (∀ others, sr.Resolves texts interfaces ni ip others ↔ others = nhs) ∧
          ∀ sr' order', sr.Reordered sr' →
            ∃ route', sr'.egressNexthops texts interfaces order' depth ni ip = .ok (nhs, route') := by
  refine ⟨forward.egressNexthops deep interfaces order ni ip, fun nhs route isOk => ⟨fun others => ?_,
    fun sr' order' reordered => reordered.egressNexthops_ok isOk⟩⟩
  have resolves := egressNexthops_resolves isOk
  constructor
  · exact fun resolves' => resolves'.unique resolves
  · rintro rfl
    exact resolves

end SysRIB

def lineNexthop : ResolvedNexthop :=
  ⟨⟨0, "10.0.0.1", defaultNetworkInstance⟩, ethernet, {}⟩

theorem lineRib_nexthop :
    lineRib.ResolvesForward sampleTexts ∧
      ∀ others, lineRib.Resolves sampleTexts (fun _ => true) defaultNetworkInstance
        ((Address.v4 #v[20, 0, 0, 0]).masked 8) others ↔ others = {lineNexthop} := by
  have isOk : lineRib.egressNexthops sampleTexts (fun _ => true) Shuffle.id 2 defaultNetworkInstance
      ((Address.v4 #v[20, 0, 0, 0]).masked 8) =
        .ok ({lineNexthop}, some (viaGateway "20.0.0.0/8")) := by
    rfl
  have reference := SysRIB.egressNexthops_reference sampleTexts lineRib (fun _ => true) Shuffle.id
    defaultNetworkInstance ((Address.v4 #v[20, 0, 0, 0]).masked 8) lineRib_forward
    (show (lineRib.targets sampleTexts).length < 2 by decide +kernel)
  exact ⟨lineRib_forward, (reference.2 _ _ isOk).1⟩

end Lemming.Sysrib
