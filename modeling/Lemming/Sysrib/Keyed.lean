import Lemming.Sysrib.Rib

set_option autoImplicit false

namespace Lemming.Sysrib

open Lemming.Shared

structure RIBKey where
  ni : String
  ip : IPNet
  adminDistance : UInt8
  connected : Option Interface
deriving DecidableEq

def Route.key (ni : String) (ip : IPNet) (r : Route) : RIBKey :=
  ⟨ni, ip, r.routePref.adminDistance, r.connected⟩

structure RouteChange where
  ni : String
  route : Route
  isDelete : Bool

-- An add replaces the value, a delete removes the key.
def RouteChange.update (texts : Texts) (routes : RIBKey → Option Route) (change : RouteChange) :
    RIBKey → Option Route :=
  match texts.ipnet change.route.pfx with
  | .error _ => routes
  | .ok net => Function.update routes (change.route.key change.ni net)
    (if change.isDelete then none else some change.route)

def Texts.place (texts : Texts) (net : IPNet) : Option IPNet :=
  match texts.parseIP (texts.printIPNet net) with
  | .ok (some ip) => some ip
  | _ => none

-- The prefix that the text of a route stands for, and the one that its tag is found at.
structure Texts.Reads (texts : Texts) (r : Route) (net ip : IPNet) : Prop where
  parsed : texts.ipnet r.pfx = .ok net
  placed : texts.place net = some ip

open PrefixTree

variable {T : Type → Type} [PrefixTree T]

def RouteChange.set (texts : Texts) (sr : SysRIB T) (change : RouteChange) : Outcome (SysRIB T) :=
  sr.setRoute texts change.ni change.route change.isDelete

-- The tags of a network instance are the routes of the map, each of them once and where its text says.
structure NIRIB.Holds (texts : Texts) (routes : RIBKey → Option Route) (ni : String) (rib : NIRIB T) :
    Prop where
  once : (tags rib.tree).Nodup
  stored : ∀ ip r, (ip, r) ∈ tags rib.tree ↔
    ∃ net, texts.Reads r net ip ∧ routes (r.key ni net) = some r

def SysRIB.Holds (texts : Texts) (routes : RIBKey → Option Route) (sr : SysRIB T) : Prop :=
  ∀ ni rib, sr.ni.lookup ni = some rib → rib.Holds texts routes ni

variable {texts : Texts} {routes : RIBKey → Option Route} {ni : String} {rib : NIRIB T} {r tag : Route}
  {net net' ip place : IPNet}

theorem Texts.Reads.unique (reads : texts.Reads r net ip) (reads' : texts.Reads r net' place) :
    net' = net ∧ place = ip := by
  cases reads.parsed.symm.trans reads'.parsed
  cases reads.placed.symm.trans reads'.placed
  exact ⟨rfl, rfl⟩

-- Tags that match are at one place, so that the match alone says that the keys are the same.
theorem Texts.Reads.matches_iff (reads : texts.Reads r net ip) (reads' : texts.Reads tag net' place) :
    (place = ip ∧ routeKeyMatches texts tag r = true) ↔ tag.key ni net' = r.key ni net := by
  simp only [routeKeyMatches, reads.parsed, reads'.parsed, Bool.and_eq_true, decide_eq_true_eq,
    Route.key, RIBKey.mk.injEq, true_and, and_assoc]
  refine and_iff_right_of_imp ?_
  rintro ⟨rfl, -⟩
  cases reads.placed.symm.trans reads'.placed
  rfl

theorem NIRIB.Holds.mem_delete (holds : rib.Holds texts routes ni) (reads : texts.Reads r net ip)
    (place : IPNet) (tag : Route) :
    (place, tag) ∈ tags (delete rib.tree ip (routeKeyMatches texts) r) ↔
      ∃ net', texts.Reads tag net' place ∧ routes (tag.key ni net') = some tag ∧
        tag.key ni net' ≠ r.key ni net := by
  rw [(tags_delete _ _ _ _).mem_iff, List.mem_filter, holds.stored]
  constructor
  · rintro ⟨⟨net', reads', isRoute⟩, other⟩
    refine ⟨net', reads', isRoute, fun same => ?_⟩
    simp [(reads.matches_iff reads').mpr same] at other
  · rintro ⟨net', reads', isRoute, other⟩
    refine ⟨⟨net', reads', isRoute⟩, ?_⟩
    rw [Bool.not_eq_true', Bool.and_eq_false_imp]
    intro isPlace
    have differs := mt (reads.matches_iff reads').mp other
    rw [not_and, Bool.not_eq_true] at differs
    exact differs (of_decide_eq_true isPlace)

theorem tags_add_delete (tree : T Route) (same : Route → Route → Bool) :
    (tags (add (delete tree ip same r) ip r same)).Perm (tags (delete tree ip same r) ++ [(ip, r)]) := by
  have none : ¬ (tags (delete tree ip same r)).any fun entry => entry.1 = ip && same entry.2 r := by
    rw [(tags_delete _ _ _ _).any_eq]
    simp
  have added := tags_add (delete tree ip same r) ip r same
  rwa [if_neg none] at added

theorem NIRIB.Holds.set (holds : rib.Holds texts routes ni) (reads : texts.Reads r net ip)
    (isDelete : Bool) :
    NIRIB.Holds texts (Function.update routes (r.key ni net) (if isDelete then none else some r)) ni
      (NIRIB.mk (if isDelete then delete rib.tree ip (routeKeyMatches texts) r
        else add (delete rib.tree ip (routeKeyMatches texts) r) ip r (routeKeyMatches texts))) := by
  have left := holds.mem_delete reads
  have once : (tags (delete rib.tree ip (routeKeyMatches texts) r)).Nodup :=
    (tags_delete _ _ _ _).nodup_iff.mpr (holds.once.filter _)
  cases isDelete with
  | true =>
    refine ⟨once, fun place tag => (left place tag).trans (exists_congr fun net' => and_congr_right fun _ => ?_)⟩
    by_cases same : tag.key ni net' = r.key ni net <;> simp [same]
  | false =>
    have added : (tags (add (delete rib.tree ip (routeKeyMatches texts) r) ip r
        (routeKeyMatches texts))).Perm _ := tags_add_delete _ _
    refine ⟨added.nodup_iff.mpr (List.nodup_append.mpr ⟨once, List.nodup_singleton _, ?_⟩),
      fun place tag => added.mem_iff.trans ?_⟩
    · rintro _ isTag _ isNew rfl
      rw [List.mem_singleton.mp isNew, left] at isTag
      obtain ⟨net', reads', -, other⟩ := isTag
      exact other (by rw [(reads.unique reads').1])
    · rw [List.mem_append, left, List.mem_singleton]
      constructor
      · rintro (⟨net', reads', isRoute, other⟩ | isNew)
        · exact ⟨net', reads', by rwa [Function.update_of_ne other]⟩
        · cases isNew
          exact ⟨net, reads, Function.update_self ..⟩
      · rintro ⟨net', reads', isRoute⟩
        by_cases same : tag.key ni net' = r.key ni net
        · rw [same, Function.update_self] at isRoute
          cases Option.some.inj isRoute
          rw [(reads.unique reads').2]
          exact Or.inr rfl
        · rw [Function.update_of_ne same] at isRoute
          exact Or.inl ⟨net', reads', isRoute, same⟩

theorem NIRIB.Holds.congr {routes' : RIBKey → Option Route} (holds : rib.Holds texts routes ni)
    (agree : ∀ key, key.ni = ni → routes' key = routes key) : rib.Holds texts routes' ni :=
  ⟨holds.once, fun ip r => by simp only [holds.stored, agree (r.key ni _) rfl]⟩

variable {sr : SysRIB T} {change : RouteChange}

theorem SysRIB.Holds.step (holds : sr.Holds texts routes) (known : change.ni ∈ sr.ni)
    (reads : texts.Reads change.route net ip) :
    ∃ sr', change.set texts sr = .ok sr' ∧ (∀ ni, ni ∈ sr'.ni ↔ ni ∈ sr.ni) ∧
      sr'.Holds texts (change.update texts routes) := by
  obtain ⟨rib, found⟩ := Option.isSome_iff_exists.mp (AList.lookup_isSome.mpr known)
  have isRead : texts.parseIP (texts.printIPNet net) = .ok (some ip) := by
    have placed := reads.placed
    rw [Texts.place] at placed
    split at placed
    · cases placed
      assumption
    · cases placed
  refine ⟨_, by rw [RouteChange.set, SysRIB.setRoute, found, reads.parsed]; simp only [isRead]; rfl,
    fun ni => ?_, fun ni rib' found' => ?_⟩
  · rw [AList.mem_insert]
    exact or_iff_right_of_imp fun same => same ▸ known
  · rw [RouteChange.update, reads.parsed]
    by_cases same : ni = change.ni
    · subst same
      cases (AList.lookup_insert _).symm.trans found'
      exact (holds _ rib found).set reads change.isDelete
    · rw [AList.lookup_insert_ne same] at found'
      refine (holds ni rib' found').congr fun key isNi => Function.update_of_ne ?_ _ _
      rintro rfl
      exact same isNi.symm

theorem routes_keyed (texts : Texts) (start : SysRIB T)
    (empty : ∀ ni rib, start.ni.lookup ni = some rib → tags rib.tree = []) (changes : List RouteChange)
    (valid : ∀ change ∈ changes, change.ni ∈ start.ni ∧ ∃ net ip, texts.Reads change.route net ip) :
    ∃ sr, changes.foldlM (RouteChange.set texts) start = .ok sr ∧ (∀ ni, ni ∈ sr.ni ↔ ni ∈ start.ni) ∧
      sr.Holds texts (changes.foldl (RouteChange.update texts) fun _ => none) := by
  have holds : start.Holds texts fun _ => none := by
    intro ni rib found
    have none : tags rib.tree = [] := empty ni rib found
    constructor <;> simp [none]
  generalize (fun _ : RIBKey => none) = routes at holds ⊢
  clear empty
  induction changes generalizing start routes with
  | nil => exact ⟨start, rfl, fun _ => Iff.rfl, holds⟩
  | cons change rest ih =>
    obtain ⟨⟨known, net, ip, reads⟩, later⟩ := List.forall_mem_cons.mp valid
    obtain ⟨next, step, names, holds⟩ := holds.step known reads
    obtain ⟨sr, run, names', holds⟩ := ih next
      (fun change isMember => (later change isMember).imp_left (names change.ni).mpr) _ holds
    refine ⟨sr, ?_, fun ni => (names' ni).trans (names ni), holds⟩
    rw [List.foldlM_cons, step]
    exact run

def staticRoute (pfx : String) (metric : UInt32) : Route := ⟨pfx, none, [], ⟨1, metric⟩⟩

def ten : IPNet := (Address.v4 #v[10, 0, 0, 0]).masked 8

-- Two texts of one prefix.
def tenTexts : Texts := .ofTables [] (["10.0.0.0/8", "10.1.2.3/8"].map (·, ten))

def tenChanges : List RouteChange :=
  [⟨"DEFAULT", staticRoute "10.0.0.0/8" 1, false⟩, ⟨"DEFAULT", staticRoute "10.1.2.3/8" 2, false⟩]

theorem routes_keyed_two_texts :
    ∃ sr, tenChanges.foldlM (RouteChange.set tenTexts) (newSysRIB TagList) = .ok sr ∧
      (∀ ni, ni ∈ sr.ni ↔ ni ∈ (newSysRIB TagList).ni) ∧
      sr.Holds tenTexts (tenChanges.foldl (RouteChange.update tenTexts) fun _ => none) := by
  refine routes_keyed tenTexts (newSysRIB TagList) (fun ni rib found => ?_) tenChanges ?_
  · have isMember := AList.mem_lookup_iff.mp found
    cases List.mem_singleton.mp isMember
    rfl
  · simp only [tenChanges, List.forall_mem_cons, List.not_mem_nil, false_imp_iff, implies_true, and_true]
    exact ⟨⟨by decide +kernel, ten, ten, by decide +kernel, by decide +kernel⟩,
      by decide +kernel, ten, ten, by decide +kernel, by decide +kernel⟩

end Lemming.Sysrib
