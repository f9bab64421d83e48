import Lemming.Flow.Identity
import Lemming.Flow.Bank

set_option autoImplicit false

namespace Lemming.Flow

open Packet Shared

variable {A : Type} {maxSize : FieldID → Nat} {sets : Sets} {keys quals : FieldList}
  {E : Desc → EntryQualifier → Prop}

section Requests

theorem listing_returns (keys : List PacketFieldMaskedBytes) : (listing keys).Returns := by
  induction keys with
  | nil => exact .ok []
  | cons d rest ih =>
    have field : (newFieldKey d.bytes d.masks).Returns := by
      unfold newFieldKey
      split
      · split
        · exact .ok _
        · exact .error _
      · exact .ok _
    exact field.bind fun _ => ih.bind fun _ => .ok _

theorem newDesc_returns (flow : FlowEntryDesc) : (newDesc flow.fields flow.qualifiers).Returns := by
  rw [newDesc, newDescKeys_eq]
  exact ((listing_returns flow.fields).bind fun _ => .ok _).bind fun _ => .ok _

theorem makeEntryQualifierLoop_cases (sets : Sets) (fd : Desc) (fields : List FieldID)
    (values : GoMap FieldID SetId) :
    (∃ q, FieldList.makeEntryQualifierLoop sets fd fields values = .ok q ∧
        (∀ f, q.values.lookup f =
          (if f ∈ fields then fd.qualifiers.lookup f else none).or (values.lookup f)) ∧
        ∀ f ∈ fields, ∀ s, fd.qualifiers.lookup f = some s → (sets s).isSome = true) ∨
      ∃ message, FieldList.makeEntryQualifierLoop sets fd fields values = .error message ∧
        ¬ ∀ f ∈ fields, ∀ s, fd.qualifiers.lookup f = some s → (sets s).isSome = true := by
  induction fields generalizing values with
  | nil => exact Or.inl ⟨_, rfl, fun _ => rfl, nofun⟩
  | cons id rest ih =>
    rw [FieldList.makeEntryQualifierLoop, List.forall_mem_cons]
    cases found : fd.qualifiers.lookup id with
    | none =>
      rcases ih values with ⟨q, made, lookup, all⟩ | ⟨message, failed, some⟩
      · refine Or.inl ⟨q, made, fun f => ?_, by simp, all⟩
        by_cases same : f = id
        · subst same
          simp [lookup, found]
        · simp [lookup, same]
      · exact Or.inr ⟨message, failed, fun both => some both.2⟩
    | some sid =>
      cases there : sets sid with
      | none =>
        refine Or.inr ⟨"flow: NewEntryQualifier failed, cannot find set", by simp [there], ?_⟩
        exact fun all => by simpa [there] using all.1 sid rfl
      | some members =>
        simp only [there]
        rcases ih (values.insert id sid) with ⟨q, made, lookup, all⟩ | ⟨message, failed, some⟩
        · refine Or.inl ⟨q, made, fun f => ?_, by simp [there], all⟩
          by_cases same : f = id
          · subst same
            by_cases later : f ∈ rest <;> simp [lookup, found, later]
          · simp [lookup, same]
        · exact Or.inr ⟨message, failed, fun both => some both.2⟩

theorem makeEntryQualifier_lookup {l : FieldList} {fd : Desc} {q : EntryQualifier}
    (made : l.makeEntryQualifier sets fd = .ok q) (f : FieldID) :
    q.values.lookup f = if f ∈ l.fields then fd.qualifiers.lookup f else none := by
  rcases makeEntryQualifierLoop_cases sets fd l.fields ∅ with ⟨q', run, lookup, -⟩ | ⟨_, failed, -⟩
  · cases run.symm.trans made
    rw [lookup]
    exact Option.or_none
  · cases failed.symm.trans made

end Requests

namespace Map

variable {m after : Map A} {ids : List Nat} {fd : Desc}

def Fit (keys quals : FieldList) (E : Desc → EntryQualifier → Prop) (fd : Desc) (q : EntryQualifier) :
    Prop :=
  (∀ f ∈ fd.keys, f ∈ keys.fields) ∧ (∀ f ∈ q.values, f ∈ quals.fields) ∧ E fd q

structure Standing (maxSize : FieldID → Nat) (keys quals : FieldList)
    (E : Desc → EntryQualifier → Prop) (m : Map A) : Prop where
  keyed : m.Keyed maxSize (Fit keys quals E) m.ids
  keyFields : m.keyFields = keys
  fields : ∀ f ∈ m.qualifierFields.fields, f ∈ quals.fields

def Has (m : Map A) (fd : Desc) (actions : List A) : Prop :=
  ∃ id entry, m.find fd = .ok (some id) ∧ m.entries id = some entry ∧ entry.actions = actions

def Accepts (sets : Sets) (m : Map A) (fd : Desc) : Prop :=
  (∃ id, m.find fd = .ok (some id)) ∨
    ∀ f ∈ m.qualifierFields.fields, ∀ s, fd.qualifiers.lookup f = some s → (sets s).isSome = true

def picked (sets : Sets) (key : PacketKey) (qualifier : PacketQualifier) (m : Map A) :
    Option (Desc × List A) :=
  ((m.ids.find? (m.admits sets key qualifier)).bind m.entries).map fun entry =>
    (entry.desc, entry.actions)

theorem newMap_standing {fields : FieldList} (subset : ∀ f ∈ fields.fields, f ∈ quals.fields) :
    (newMap keys fields : Map A).Standing maxSize keys quals E :=
  ⟨(newMap_keyed keys fields).own, rfl, subset⟩

namespace Standing

section

variable (standing : m.Standing maxSize keys quals E)
include standing

theorem mono {quals' : FieldList}
    (subset : ∀ f ∈ quals.fields, f ∈ quals'.fields) : m.Standing maxSize keys quals' E :=
  { standing with
    keyed := standing.keyed.imp fun _ _ fit =>
      ⟨fit.1, fun f held => subset f (fit.2.1 f held), fit.2.2⟩
    fields := fun f member => subset f (standing.fields f member) }

theorem find_eq (fd : Desc) :
    m.find fd = .ok ((m.bucket m.ids fd.hash).find? (m.describes fd)) :=
  standing.keyed.find_eq fd

theorem known {id : Nat} (member : id ∈ m.ids)
    {entry : Entry A} (isEntry : m.entries id = some entry) :
    Fit keys quals E entry.desc entry.qualifier := by
  obtain ⟨entry', present, -, fit⟩ := standing.keyed.present id member
  cases present.symm.trans isEntry
  exact fit

theorem add (sets : Sets)
    (covered : ∀ f ∈ fd.keys, f ∈ keys.fields)
    (new : ∀ q, m.qualifierFields.makeEntryQualifier sets fd = .ok q → E fd q) (actions : List A) :
    (∃ after, m.add sets maxSize fd actions = .ok after ∧ m.Accepts sets fd ∧
        after.Standing maxSize keys quals E ∧ after.Has fd actions ∧
        (HashesAlike fd m.contents → after.contents = addFlow fd actions m.contents)) ∨
      ∃ message, m.add sets maxSize fd actions = .error message ∧ ¬ m.Accepts sets fd ∧
        m.find fd = .ok none := by
  have keyed := standing.keyed
  have searched := standing.find_eq fd
  cases found : (m.bucket m.ids fd.hash).find? (m.describes fd) with
  | some id =>
    rw [found] at searched
    have kept := keyed.setActions id actions
    obtain ⟨entry, present, -⟩ := keyed.present id (mem_bucket_find found).1
    refine Or.inl ⟨m.modify id fun entry => { entry with actions }, by rw [Map.add, searched]; rfl,
      Or.inl ⟨id, searched⟩, ⟨kept.own, standing.keyFields, standing.fields⟩,
      ⟨id, { entry with actions }, ?_, by simp [Map.modify, present], rfl⟩, fun alike =>
      keyed.contents_setActions alike found actions⟩
    rw [kept.find_eq, find_modified, found]
  | none =>
    rw [found] at searched
    have makes := makeEntryQualifierLoop_cases sets fd m.qualifierFields.fields ∅
    rw [← FieldList.makeEntryQualifier] at makes
    rcases makes with ⟨qualifier, made, -, all⟩ | ⟨message, failed, some⟩
    · have fit : Fit keys quals E fd qualifier := by
        refine ⟨covered, fun f held => standing.fields f ?_, new qualifier made⟩
        obtain ⟨s, isSet⟩ := Option.isSome_iff_exists.mp (AList.lookup_isSome.mpr held)
        rw [makeEntryQualifier_lookup made f] at isSet
        by_contra outside
        rw [if_neg outside] at isSet
        cases isSet
      obtain ⟨entry, isEntry⟩ : ∃ entry : Entry A, entry =
        { desc := fd, actions, key := m.keyFields.makeEntryKey maxSize fd, qualifier } := ⟨_, rfl⟩
      have pushed : (m.push entry).Keyed maxSize (Fit keys quals E) (m.allocated :: m.ids) :=
        keyed.push (by rw [isEntry]) (by rw [isEntry]; exact fit)
      have contents : (m.push entry).contents = (entry.desc, entry.actions) :: m.contents :=
        keyed.contents_push (by rw [isEntry]) (by rw [isEntry]; exact fit)
      have searched' := pushed.find_eq entry.desc
      rw [find_pushed] at searched'
      subst isEntry
      refine Or.inl ⟨_, by rw [Map.add, searched, Outcome.ok_bind, made]; rfl, Or.inr all,
        ⟨pushed.own, standing.keyFields, standing.fields⟩,
        ⟨m.allocated, _, searched', by simp [Map.push]; rfl, rfl⟩, fun alike => ?_⟩
      exact contents.trans (addFlow_absent (not_found_absent alike found) actions).symm
    · refine Or.inr ⟨message, ?_, ?_, searched⟩
      · rw [Map.add, searched, Outcome.ok_bind, failed]
        rfl
      · rintro (⟨id, isFound⟩ | all)
        · rw [searched] at isFound
          cases isFound
        · exact some all

theorem remove (fd : Desc) :
    (∃ message, m.remove fd = .error message ∧
        (HashesAlike fd m.contents → removeFlow fd m.contents = m.contents)) ∨
      ∃ after, m.remove fd = .ok after ∧ after.Standing maxSize keys quals E ∧
        (HashesAlike fd m.contents → after.contents = removeFlow fd m.contents) := by
  rcases standing.keyed.remove_cases fd with
    ⟨missing, message, failed⟩ | ⟨id, front, back, found, -, run, kept⟩
  · refine Or.inl ⟨message, failed, fun alike => List.eraseP_of_forall_not fun flow member => ?_⟩
    simp [not_found_absent alike missing flow member]
  · exact Or.inr ⟨_, run, ⟨kept.own, standing.keyFields, standing.fields⟩, fun alike =>
      standing.keyed.contents_drop alike found⟩

theorem rebuild {keys' : FieldList}
    (subset : ∀ f ∈ keys.fields, f ∈ keys'.fields) :
    m.rebuild maxSize keys' = .ok (m.rekeyed maxSize keys' m.ids) ∧
      (m.rekeyed maxSize keys' m.ids).Standing maxSize keys' quals E := by
  have kept := (standing.keyed.rekeyed keys').imp fun _ _ (fit : Fit keys quals E _ _) =>
    show Fit keys' quals E _ _ from ⟨fun f held => subset f (fit.1 f held), fit.2⟩
  exact ⟨standing.keyed.rebuild_eq keys', kept.own, rfl, standing.fields⟩

theorem rekeyed_find (kd : FieldList) (fd : Desc) :
    (m.rekeyed maxSize kd m.ids).find fd = m.find fd := by
  rw [standing.find_eq, (standing.keyed.rekeyed kd).find_eq]
  have hashes : ∀ id ∈ m.ids, (m.rekeyed maxSize kd m.ids).hashOf id = m.hashOf id := by
    intro id member
    obtain ⟨entry, present, -⟩ := standing.keyed.present id member
    simp [hashOf, rekeyed_entries member present, present]
  have same : (m.rekeyed maxSize kd m.ids).bucket m.ids fd.hash = m.bucket m.ids fd.hash :=
    List.filter_congr fun id member => by rw [hashes id member]
  rw [same]
  congr 1
  refine List.find?_congr fun id member => ?_
  obtain ⟨entry, present, -⟩ := standing.keyed.present id (mem_bucketOf.mp member).1
  simp [describes, rekeyed_entries (mem_bucketOf.mp member).1, present]

theorem match_eq (sets : Sets) (key : PacketKey)
    (qualifier : PacketQualifier) : m.match sets key qualifier = .ok (m.picked sets key qualifier) := by
  have searched := standing.keyed.seq.linked.search_correct (m.admits sets key qualifier)
    standing.keyed.length_le
  rw [Map.match, standing.keyed.seq.head_eq, searched]
  rfl

theorem rekeyed_self :
    m.rekeyed maxSize keys m.ids = m := by
  have entries : (m.rekeyed maxSize keys m.ids).entries = m.entries := by
    funext id
    by_cases member : id ∈ m.ids
    · obtain ⟨entry, present, made, -⟩ := standing.keyed.present id member
      rw [rekeyed_entries member present, present, ← standing.keyFields, ← made]
    · simp [rekeyed, member]
  calc m.rekeyed maxSize keys m.ids
    _ = { m with entries := (m.rekeyed maxSize keys m.ids).entries, keyFields := keys } := rfl
    _ = m := by rw [entries, ← standing.keyFields]

theorem picked_rekeyed {kd : FieldList}
    {key key' : PacketKey} {qualifier qualifier' : PacketQualifier}
    (same : ∀ id ∈ m.ids, ∀ entry, m.entries id = some entry →
      ((kd.makeEntryKey maxSize entry.desc).match key' && entry.qualifier.match sets qualifier') =
        ((keys.makeEntryKey maxSize entry.desc).match key && entry.qualifier.match sets qualifier)) :
    (m.rekeyed maxSize kd m.ids).picked sets key' qualifier' = m.picked sets key qualifier := by
  have kept := standing.keyed.rekeyed kd
  have admitted : m.ids.find? ((m.rekeyed maxSize kd m.ids).admits sets key' qualifier') =
      m.ids.find? (m.admits sets key qualifier) := by
    refine List.find?_congr fun id member => ?_
    obtain ⟨entry, present, made, -⟩ := standing.keyed.present id member
    rw [standing.keyFields] at made
    simp only [admits, rekeyed_entries member present, present, made]
    exact same id member entry present
  rw [picked, picked, kept.ids_eq, admitted]
  cases found : m.ids.find? (m.admits sets key qualifier) with
  | none => rfl
  | some id =>
    have member := List.mem_of_find?_eq_some found
    obtain ⟨entry, present, -⟩ := standing.keyed.present id member
    simp [rekeyed_entries member present, present]

end

end Standing

end Map

namespace FlowBank

variable {b b' : FlowBank A} {p : UInt32} {ids : List Nat} {fd : Desc}

def Standing (maxSize : FieldID → Nat) (keys quals : FieldList) (E : Desc → EntryQualifier → Prop)
    (b : FlowBank A) : Prop :=
  ∃ ids, b.Arranged (Map.Standing maxSize keys quals E) ids

def level? (b : FlowBank A) (p : UInt32) : Option (Level A) :=
  (b.levels.lookup p).bind b.nodes

def Has (b : FlowBank A) (p : UInt32) (fd : Desc) (actions : List A) : Prop :=
  ∃ level, b.level? p = some level ∧ level.flows.Has fd actions

def Accepts (sets : Sets) (quals : List FieldID) (b : FlowBank A) (p : UInt32) (fd : Desc) : Prop :=
  match b.level? p with
  | some level => level.flows.Accepts sets fd
  | none => ∀ f ∈ quals, ∀ s, fd.qualifiers.lookup f = some s → (sets s).isSome = true

theorem level?_setFlows {id : Nat} {level : Level A} (found : b.levels.lookup p = some id)
    (present : b.nodes id = some level) (flows : Map A) :
    (b.setFlows id flows).level? p = some { level with flows } := by
  simp [level?, setFlows, found, present]

theorem addFlow_map {m : Map A} (standing : m.Standing maxSize keys quals E) (sets : Sets)
    (covered : ∀ f ∈ fd.keys, f ∈ keys.fields)
    (new : ∀ q, m.qualifierFields.makeEntryQualifier sets fd = .ok q → E fd q) (actions : List A) :
    ∃ flows, (m.add sets maxSize fd actions).ignoreError m = .ok flows ∧
      flows.Standing maxSize keys quals E ∧ (flows.Has fd actions ↔ m.Accepts sets fd) ∧
      (m.Accepts sets fd → Map.HashesAlike fd m.contents →
        flows.contents = Map.addFlow fd actions m.contents) := by
  rcases standing.add sets covered new actions with
    ⟨flows, added, accepts, after, has, contents⟩ | ⟨message, failed, refuses, absent⟩
  · exact ⟨flows, by rw [added, Outcome.ignoreError_ok], after, iff_of_true has accepts,
      fun _ => contents⟩
  · refine ⟨m, by rw [failed, Outcome.ignoreError_error], standing, iff_of_false ?_ refuses,
      fun accepts => absurd accepts refuses⟩
    rintro ⟨id, entry, found, -⟩
    rw [absent] at found
    cases found

def fieldsAt (quals : FieldList) (b : FlowBank A) (p : UInt32) : FieldList :=
  ((b.level? p).map fun level => level.flows.qualifierFields).getD quals

theorem Standing.addFlow (standing : b.Standing maxSize keys quals E) (sets : Sets) (p : UInt32)
    (covered : ∀ f ∈ fd.keys, f ∈ keys.fields)
    (new : ∀ q, (b.fieldsAt quals p).makeEntryQualifier sets fd = .ok q → E fd q)
    (actions : List A) :
    ∃ after, b.addFlow sets maxSize keys quals p fd actions = .ok after ∧
      after.Standing maxSize keys quals E ∧
      (after.Has p fd actions ↔ b.Accepts sets quals.fields p fd) ∧
      (b.Accepts sets quals.fields p fd → Map.HashesAlike fd (b.contents p) →
        after.contents = Function.update b.contents p (Map.addFlow fd actions (b.contents p))) := by
  obtain ⟨ids, arranged⟩ := standing
  have only {after : FlowBank A} {level : Level A} (isLevel : after.level? p = some level) :
      after.Has p fd actions ↔ level.flows.Has fd actions := by
    simp [Has, isLevel]
  rw [FlowBank.addFlow]
  cases found : b.levels.lookup p with
  | some id =>
    obtain ⟨level, present, -, facts, old⟩ := arranged.level found
    have isLevel : b.level? p = some level := by rw [level?, found, Option.bind_some, present]
    rw [fieldsAt, isLevel] at new
    obtain ⟨flows, put, after, has, contents⟩ := addFlow_map facts sets covered new actions
    obtain ⟨kept, changed⟩ := arranged.setFlows found after
    simp only [present, put, Outcome.ok_bind]
    refine ⟨_, rfl, ⟨ids, kept⟩, ?_, ?_⟩
    · rw [only (level?_setFlows found present flows), has, Accepts, isLevel]
    · rw [changed, Accepts, isLevel, old]
      exact fun accepts alike => by rw [contents accepts alike]
  | none =>
    have noLevel : b.level? p = none := by rw [level?, found]; rfl
    rw [fieldsAt, noLevel] at new
    have fresh : (Map.newMap keys quals : Map A).Standing maxSize keys quals E :=
      Map.newMap_standing fun _ member => member
    obtain ⟨added, ids', run, arranged', listed, grown⟩ := arranged.addLevel found fresh
    obtain ⟨level, present, -, -, -⟩ := arranged'.level listed
    obtain ⟨flows, put, after, has, contents⟩ := addFlow_map fresh sets covered new actions
    obtain ⟨kept, changed⟩ := arranged'.setFlows listed after
    have nothing : (Map.newMap keys quals : Map A).contents = [] := rfl
    have empty : ¬ ∃ id, (Map.newMap keys quals : Map A).find fd = .ok (some id) := by
      rintro ⟨id, isFound⟩
      cases isFound
    have accepts : (Map.newMap keys quals : Map A).Accepts sets fd ↔
        b.Accepts sets quals.fields p fd := by
      rw [Accepts, noLevel, Map.Accepts, or_iff_right empty]
      rfl
    simp only [run, put, Outcome.ok_bind]
    refine ⟨_, rfl, ⟨ids', kept⟩, ?_, fun accepted _ => ?_⟩
    · rw [only (level?_setFlows listed present flows), has, accepts]
    · rw [changed, grown, Function.update_idem, contents (accepts.mpr accepted) (by
        rw [nothing]
        exact nofun), nothing, contents_none found]

theorem Standing.removeFlow (standing : b.Standing maxSize keys quals E) {id : Nat}
    {level : Level A} (found : b.levels.lookup p = some id) (present : b.nodes id = some level)
    (fd : Desc) :
    (∃ message, b.removeFlow id level p fd = .error message ∧
        (Map.HashesAlike fd (b.contents p) → Map.removeFlow fd (b.contents p) = b.contents p)) ∨
      ∃ after, b.removeFlow id level p fd = .ok after ∧ after.Standing maxSize keys quals E ∧
        (Map.HashesAlike fd (b.contents p) →
          after.contents = Function.update b.contents p (Map.removeFlow fd (b.contents p))) := by
  obtain ⟨ids, arranged⟩ := standing
  obtain ⟨level', present', -, facts, old⟩ := arranged.level found
  cases present.symm.trans present'
  rw [FlowBank.removeFlow, old]
  rcases facts.remove fd with ⟨message, failed, same⟩ | ⟨flows, removed, after, contents⟩
  · exact Or.inl ⟨message, by rw [failed]; rfl, same⟩
  · right
    obtain ⟨kept, changed⟩ := arranged.setFlows found after
    rw [removed, Outcome.ok_bind]
    by_cases last : flows.count = 0
    · obtain ⟨b', ids', gone, arranged', emptied⟩ := kept.removeLevel found
      refine ⟨b', by simp [last, gone], ⟨ids', arranged'⟩, fun alike => ?_⟩
      rw [emptied, changed, Function.update_idem, ← contents alike, after.keyed.contents_nil last]
    · exact ⟨_, by simp [last], ⟨ids, kept⟩, fun alike => by rw [changed, contents alike]⟩

structure Rekeyed (maxSize : FieldID → Nat) (keys : FieldList) (ids : List Nat)
    (b b' : FlowBank A) : Prop where
  levels : b'.levels = b.levels
  nodes : ∀ id ∈ ids, ∀ level, b.nodes id = some level →
    b'.nodes id = some { level with flows := level.flows.rekeyed maxSize keys level.flows.ids }

section Rekeyed

variable {keys₀ : FieldList} (rekeyed : b.Rekeyed maxSize keys ids b')
  (arranged : b.Arranged (Map.Standing maxSize keys₀ quals E) ids)

include rekeyed arranged

theorem Rekeyed.level? (p : UInt32) :
    b'.level? p = (b.level? p).map fun level =>
      { level with flows := level.flows.rekeyed maxSize keys level.flows.ids } := by
  rw [FlowBank.level?, FlowBank.level?, rekeyed.levels]
  cases found : b.levels.lookup p with
  | none => rfl
  | some id =>
    obtain ⟨level, present, -⟩ := arranged.level found
    rw [Option.bind_some, Option.bind_some, present,
      rekeyed.nodes id ((arranged.levels p id).mp found).1 level present]
    rfl

theorem Rekeyed.contents : b'.contents = b.contents := by
  funext p
  have same := rekeyed.level? arranged p
  rw [FlowBank.level?, FlowBank.level?] at same
  rw [FlowBank.contents, FlowBank.contents, same]
  cases found : b.levels.lookup p with
  | none => rfl
  | some id =>
    obtain ⟨level, present, -, facts, -⟩ := arranged.level found
    simp [present, facts.keyed.contents_rekeyed]

theorem Rekeyed.fieldsAt (quals' : FieldList) (p : UInt32) :
    b'.fieldsAt quals' p = b.fieldsAt quals' p := by
  rw [FlowBank.fieldsAt, FlowBank.fieldsAt, rekeyed.level? arranged, Option.map_map]
  rfl

theorem Rekeyed.accepts (sets : Sets) (p : UInt32) (known : List FieldID) :
    b'.Accepts sets known p fd ↔ b.Accepts sets known p fd := by
  rw [Accepts, Accepts, rekeyed.level? arranged]
  cases found : b.level? p with
  | none => exact Iff.rfl
  | some level =>
    obtain ⟨id, isListed, present⟩ := Option.bind_eq_some_iff.mp found
    obtain ⟨level', present', -, facts, -⟩ := arranged.level isListed
    cases present.symm.trans present'
    simp only [Option.map_some, Map.Accepts, facts.rekeyed_find]
    exact Iff.rfl

end Rekeyed

def Rebuilt (maxSize : FieldID → Nat) (quals : FieldList) (E : Desc → EntryQualifier → Prop)
    (keys keys' : FieldList) (b b' : FlowBank A) : Prop :=
  ∃ ids, b.Arranged (Map.Standing maxSize keys quals E) ids ∧
    b'.Arranged (Map.Standing maxSize keys' quals E) ids ∧ b.Rekeyed maxSize keys' ids b'

theorem Standing.rebuild (standing : b.Standing maxSize keys quals E) (order : Shuffle Nat)
    {keys' : FieldList} (subset : ∀ f ∈ keys.fields, f ∈ keys'.fields) :
    (b.rebuild maxSize order keys').Yields (b.Rebuilt maxSize quals E keys keys') := by
  obtain ⟨ids, arranged⟩ := standing
  obtain ⟨after, run, arranged', levels, nodes⟩ := @Arranged.rebuild A maxSize _
    (Map.Standing maxSize keys' quals E) b ids arranged order keys'
    (fun m after => after = m.rekeyed maxSize keys' m.ids)
    fun m facts => ⟨_, (facts.rebuild subset).1, (facts.rebuild subset).2, rfl⟩
  refine ⟨after, run, ids, arranged, arranged', levels, fun id member level present => ?_⟩
  obtain ⟨flows, isAfter, rfl⟩ := nodes id member level present
  exact isAfter

end FlowBank

namespace FieldDesc

theorem learn_correct (fields : List FieldID) (updated : Bool) (known : GoMap FieldID Bool) :
    (∀ id, id ∈ (learn fields (updated, known)).2 ↔ id ∈ known ∨ id ∈ fields) ∧
      ((learn fields (updated, known)).1 = false ↔ updated = false ∧ ∀ id ∈ fields, id ∈ known) ∧
      ((learn fields (updated, known)).1 = false → (learn fields (updated, known)).2 = known) := by
  induction fields generalizing updated known with
  | nil => simp [learn]
  | cons id rest ih =>
    rw [learn, List.forall_mem_cons]
    cases found : known.lookup id with
    | none =>
      obtain ⟨members, flag, -⟩ := ih true (known.insert id true)
      have changed : ¬ (learn rest (true, known.insert id true)).1 = false :=
        fun unchanged => nomatch (flag.mp unchanged).1
      refine ⟨fun other => ?_, iff_of_false changed ?_, fun unchanged => absurd unchanged changed⟩
      · rw [members other, AList.mem_insert, List.mem_cons]
        tauto
      · exact fun all => AList.lookup_eq_none.mp found all.2.1
    | some flag =>
      obtain ⟨members, unchanged, same⟩ := ih updated known
      have present : id ∈ known := AList.lookup_isSome.mp (by simp [found])
      refine ⟨fun other => ?_, by rw [unchanged, and_iff_right present], same⟩
      rw [members other, List.mem_cons]
      constructor
      · tauto
      · rintro (old | rfl | later)
        · exact Or.inl old
        · exact Or.inl present
        · exact Or.inr later

theorem update_correct (maxSize : FieldID → Nat) (order : Shuffle FieldID) (f : FieldDesc)
    (learned : ∀ id, id ∈ f.list.fields ↔ id ∈ f.fields) (fields : List FieldID) :
    (∀ id, id ∈ (f.update maxSize order fields).2.list.fields ↔
        id ∈ (f.update maxSize order fields).2.fields) ∧
      (∀ id, id ∈ (f.update maxSize order fields).2.list.fields ↔
        id ∈ f.list.fields ∨ id ∈ fields) ∧
      ((∀ id ∈ fields, id ∈ f.fields) → (f.update maxSize order fields).1 = false) ∧
      ((f.update maxSize order fields).1 = false →
        (f.update maxSize order fields).2.list = f.list) := by
  obtain ⟨members, flag, same⟩ := learn_correct fields false f.fields
  have listed : ∀ id, id ∈ (f.update maxSize order fields).2.list.fields ↔
      id ∈ (f.update maxSize order fields).2.fields := by
    intro id
    simp only [update]
    cases updated : (learn fields (false, f.fields)).1 with
    | true => simp [newFieldList, AList.mem_keys]
    | false =>
      rw [same updated]
      simpa using learned id
  refine ⟨listed, fun id => ?_, fun all => flag.mpr ⟨rfl, all⟩, fun unchanged => ?_⟩
  · rw [listed, learned]
    exact members id
  · have kept : (learn fields (false, f.fields)).1 = false := unchanged
    simp [update, kept]

end FieldDesc

namespace Table

variable {t after : Table A} {fd : Desc}

def contents (t : Table A) (bank : Nat) (p : UInt32) : List (Desc × List A) :=
  ((t.banks[bank]?).map fun b => b.contents p).getD []

structure Standing (maxSize : FieldID → Nat) (E : Desc → EntryQualifier → Prop) (t : Table A) :
    Prop where
  banks : ∀ b ∈ t.banks, b.Standing maxSize t.keyDesc.list t.qualifierDesc.list E
  keys : ∀ id, id ∈ t.keyDesc.list.fields ↔ id ∈ t.keyDesc.fields
  qualifiers : ∀ id, id ∈ t.qualifierDesc.list.fields ↔ id ∈ t.qualifierDesc.fields

theorem build_standing (count : Nat) (actions : List A) :
    (build count actions).Standing maxSize E where
  banks := by
    intro b member
    rw [List.eq_of_mem_replicate member]
    exact ⟨[], FlowBank.arranged_nil rfl rfl⟩
  keys := by simp [build, newFieldDesc]
  qualifiers := by simp [build, newFieldDesc]

theorem Standing.clear (standing : t.Standing maxSize E) : t.clear.Standing maxSize E :=
  { standing with
    banks := by
      intro b member
      obtain ⟨old, -, rfl⟩ := List.mem_map.mp member
      exact ⟨[], FlowBank.arranged_nil rfl rfl⟩ }

theorem Standing.of_contents (standing : t.Standing maxSize E) {bank : Nat} {p : UInt32}
    {flow : Desc × List A} (stored : flow ∈ t.contents bank p) :
    (∀ f ∈ flow.1.keys, f ∈ t.keyDesc.list.fields) ∧ ∃ q, E flow.1 q := by
  rw [contents] at stored
  cases present : t.banks[bank]? with
  | none => simp [present] at stored
  | some b =>
    rw [present, Option.map_some, Option.getD_some] at stored
    obtain ⟨ids, arranged⟩ := standing.banks b (List.mem_of_getElem? present)
    cases found : b.levels.lookup p with
    | none => simp [FlowBank.contents_none found] at stored
    | some id =>
      obtain ⟨level, -, -, facts, held⟩ := arranged.level found
      rw [held] at stored
      obtain ⟨q, fit⟩ := facts.keyed.of_contents stored
      exact ⟨fit.1, q, fit.2.2⟩

def grown (t : Table A) (bankID : Nat) : Table A :=
  { t with banks := t.banks ++ List.replicate (bankID + 1 - t.banks.length) FlowBank.empty }

theorem Standing.grown (standing : t.Standing maxSize E) (bankID : Nat) :
    (t.grown bankID).Standing maxSize E :=
  { standing with
    banks := by
      intro b member
      rcases List.mem_append.mp member with old | new
      · exact standing.banks b old
      · rw [List.eq_of_mem_replicate new]
        exact ⟨[], FlowBank.arranged_nil rfl rfl⟩ }

theorem contents_grown (t : Table A) (bankID : Nat) : (t.grown bankID).contents = t.contents := by
  funext bank p
  rw [contents, contents, grown, List.getElem?_append]
  split
  · rfl
  · next outside =>
    rw [List.getElem?_replicate, List.getElem?_eq_none (Nat.le_of_not_lt outside)]
    split <;> rfl

theorem Standing.setBank (standing : t.Standing maxSize E) (i : Nat) {b : FlowBank A}
    (facts : b.Standing maxSize t.keyDesc.list t.qualifierDesc.list E) :
    ({ t with banks := t.banks.set i b } : Table A).Standing maxSize E :=
  { standing with
    banks := by
      intro other member
      rcases List.mem_or_eq_of_mem_set member with old | rfl
      · exact standing.banks other old
      · exact facts }

theorem contents_setBank {i : Nat} {b : FlowBank A} (inside : i < t.banks.length) :
    ({ t with banks := t.banks.set i b } : Table A).contents =
      Function.update t.contents i b.contents := by
  funext bank p
  by_cases same : bank = i
  · subst same
    simp [contents, inside]
  · simp [contents, same, List.getElem?_set_ne (Ne.symm same)]

structure Learned (maxSize : FieldID → Nat) (E : Desc → EntryQualifier → Prop) (fd : Desc)
    (t after : Table A) : Prop where
  actions : after.actions = t.actions
  keys : ∀ f, f ∈ after.keyDesc.list.fields ↔ f ∈ t.keyDesc.list.fields ∨ f ∈ fd.keys
  qualifiers : ∀ f, f ∈ after.qualifierDesc.list.fields ↔
    f ∈ t.qualifierDesc.list.fields ∨ f ∈ fd.qualifiers
  same : (∀ f ∈ fd.keys, f ∈ t.keyDesc.fields) → after.keyDesc.list = t.keyDesc.list
  banks : List.Forall₂ (fun b b' : FlowBank A => ∃ ids,
    b.Arranged (Map.Standing maxSize t.keyDesc.list t.qualifierDesc.list E) ids ∧
    b'.Arranged (Map.Standing maxSize after.keyDesc.list t.qualifierDesc.list E) ids ∧
    b.Rekeyed maxSize after.keyDesc.list ids b') t.banks after.banks

theorem forall₂_getElem? {α β : Type} {r : α → β → Prop} {xs : List α} {ys : List β}
    (related : List.Forall₂ r xs ys) {i : Nat} {y : β} (present : ys[i]? = some y) :
    ∃ x, xs[i]? = some x ∧ r x y := by
  induction related generalizing i with
  | nil => cases present
  | cons head _ ih =>
    cases i with
    | zero =>
      cases present
      exact ⟨_, rfl, head⟩
    | succ i => simpa using ih (by simpa using present)

theorem Learned.contents (learned : t.Learned maxSize E fd after) : after.contents = t.contents := by
  funext bank p
  rw [Table.contents, Table.contents]
  cases present : after.banks[bank]? with
  | none =>
    have outside : t.banks.length ≤ bank :=
      learned.banks.length_eq ▸ List.getElem?_eq_none_iff.mp present
    rw [List.getElem?_eq_none outside]
  | some b' =>
    obtain ⟨b, before, ids, arranged, -, rekeyed⟩ := forall₂_getElem? learned.banks present
    simp [before, rekeyed.contents arranged]

theorem rebuildBanks_standing {keys keys' quals : FieldList} (order : Shuffle Nat)
    (subset : ∀ f ∈ keys.fields, f ∈ keys'.fields) {banks : List (FlowBank A)}
    (each : ∀ b ∈ banks, b.Standing maxSize keys quals E) :
    (rebuildBanks maxSize order keys' banks).Yields
      (List.Forall₂ (FlowBank.Rebuilt maxSize quals E keys keys') banks) := by
  induction banks with
  | nil => exact ⟨[], rfl, .nil⟩
  | cons b rest ih =>
    obtain ⟨first, others⟩ := List.forall_mem_cons.mp each
    obtain ⟨b', rebuilt, facts⟩ := first.rebuild order subset
    obtain ⟨after, run, all⟩ := ih others
    exact ⟨b' :: after, by simp [rebuildBanks, rebuilt, run], .cons facts all⟩

theorem Standing.learnFields (standing : t.Standing maxSize E) (orders : Orders) (fd : Desc) :
    ∃ after, t.learnFields maxSize orders fd = .ok after ∧ after.Standing maxSize E ∧
      t.Learned maxSize E fd after := by
  obtain ⟨keysListed, keysMembers, flag, unchanged⟩ := FieldDesc.update_correct maxSize orders.fields
    t.keyDesc standing.keys (orders.fields.arrange fd.keys.keys)
  obtain ⟨qualsListed, qualsMembers, -⟩ := FieldDesc.update_correct maxSize orders.fields
    t.qualifierDesc standing.qualifiers (orders.fields.arrange fd.qualifiers.keys)
  simp only [orders.fields.mem_arrange, ← AList.mem_keys] at keysMembers qualsMembers flag
  generalize keyStep : t.keyDesc.update maxSize orders.fields (orders.fields.arrange fd.keys.keys) =
    keyResult at keysListed keysMembers flag unchanged
  generalize qualStep : t.qualifierDesc.update maxSize orders.fields
    (orders.fields.arrange fd.qualifiers.keys) = qualResult at qualsListed qualsMembers
  obtain ⟨rebuild, keyDesc⟩ := keyResult
  obtain ⟨_, qualifierDesc⟩ := qualResult
  have rebuilt : (if rebuild = true then rebuildBanks maxSize orders.levels keyDesc.list t.banks
      else .ok t.banks).Yields (List.Forall₂ (FlowBank.Rebuilt maxSize t.qualifierDesc.list E
        t.keyDesc.list keyDesc.list) t.banks) := by
    cases rebuild with
    | true =>
      exact rebuildBanks_standing orders.levels (fun f member => (keysMembers f).mpr (Or.inl member))
        standing.banks
    | false =>
      -- Making the keys again from the same list would change nothing.
      have same : keyDesc.list = t.keyDesc.list := unchanged rfl
      refine ⟨t.banks, rfl, List.forall₂_same.mpr fun b member => ?_⟩
      obtain ⟨ids, arranged⟩ := standing.banks b member
      rw [same]
      refine ⟨ids, arranged, arranged, rfl, fun id inside level present => ?_⟩
      obtain ⟨level', present', facts⟩ := arranged.present id inside
      obtain rfl : level = level' := Option.some_inj.mp (present.symm.trans present')
      rw [facts.rekeyed_self, present]
  obtain ⟨banks, run, related⟩ := rebuilt
  refine ⟨_, by rw [Table.learnFields]; simp only [keyStep, qualStep, run]; rfl, ?_, ?_⟩
  · refine ⟨fun b' member => ?_, keysListed, qualsListed⟩
    obtain ⟨i, present⟩ := List.mem_iff_getElem?.mp member
    obtain ⟨b, -, ids, -, arranged, -⟩ := forall₂_getElem? related present
    exact ⟨ids, arranged.imp fun m facts => facts.mono fun f inside =>
      (qualsMembers f).mpr (Or.inl inside)⟩
  · exact ⟨rfl, keysMembers, qualsMembers, fun all => unchanged (flag all), related⟩

def Has (t : Table A) (bank : Nat) (p : UInt32) (fd : Desc) (actions : List A) : Prop :=
  ∃ b, t.banks[bank]? = some b ∧ b.Has p fd actions

-- The level that the flow goes to has it already or finds the sets it needs. A new level needs all the
-- sets of the flow.
def Accepts (sets : Sets) (t : Table A) (bank : Nat) (p : UInt32) (fd : Desc) : Prop :=
  match (t.banks[bank]?).bind fun b => b.level? p with
  | some level => level.flows.Accepts sets fd
  | none => ∀ f s, fd.qualifiers.lookup f = some s → (sets s).isSome = true

def Takes (t : Table A) (bank : Nat) (p : UInt32) (fd : Desc) (l : FieldList) : Prop :=
  match (t.banks[bank]?).bind fun b => b.level? p with
  | some level => l = level.flows.qualifierFields
  | none => ∀ f ∈ fd.qualifiers, f ∈ l.fields

theorem grown_bank (t : Table A) (bankID : Nat) :
    ∃ b, (t.grown bankID).banks[bankID]? = some b ∧
      ∀ p, b.level? p = (t.banks[bankID]?).bind fun b => b.level? p := by
  by_cases inside : bankID < t.banks.length
  · refine ⟨t.banks[bankID], ?_, fun p => ?_⟩
    · rw [grown, List.getElem?_append_left inside, List.getElem?_eq_getElem inside]
    · rw [List.getElem?_eq_getElem inside]
      rfl
  · refine ⟨FlowBank.empty, ?_, fun p => ?_⟩
    · rw [grown, List.getElem?_append_right (Nat.le_of_not_lt inside), List.getElem?_replicate,
        if_pos (by omega)]
    · rw [List.getElem?_eq_none (Nat.le_of_not_lt inside)]
      rfl

section Requests

variable (standing : t.Standing maxSize E) (sets : Sets) (orders : Orders)
  {flow : FlowEntryDesc} {fd : Desc}

include standing

section

variable (made : newDesc flow.fields flow.qualifiers = .ok fd)
include made

theorem Standing.addEntry_refused
    (message : String) :
    ∃ after, t.addEntry sets maxSize orders (some flow) (.error message) =
        .ok (after, some ("flow: AddEntry failed, err " ++ message)) ∧
      after.Standing maxSize E ∧ (t.grown flow.bank.toNat).Learned maxSize E fd after := by
  obtain ⟨after, run, facts, learned⟩ := (standing.grown flow.bank.toNat).learnFields orders fd
  refine ⟨after, ?_, facts, learned⟩
  simp only [Table.addEntry, made]
  rw [show ({ t with banks := _ } : Table A) = t.grown flow.bank.toNat from rfl, run]
  rfl

theorem Standing.addEntry_done
    (new : ∀ l q, t.Takes flow.bank.toNat flow.priority fd l → l.makeEntryQualifier sets fd = .ok q →
      E fd q) (actions : List A) :
    ∃ after, t.addEntry sets maxSize orders (some flow) (.ok actions) = .ok (after, none) ∧
      after.Standing maxSize E ∧ (after.Has flow.bank.toNat flow.priority fd actions ↔
        t.Accepts sets flow.bank.toNat flow.priority fd) ∧
      after.actions = t.actions ∧
      after.banks.length = (t.grown flow.bank.toNat).banks.length ∧
      (t.Accepts sets flow.bank.toNat flow.priority fd →
        Map.HashesAlike fd (t.contents flow.bank.toNat flow.priority) →
        after.contents = Function.update t.contents flow.bank.toNat
          (Function.update (t.contents flow.bank.toNat) flow.priority
            (Map.addFlow fd actions (t.contents flow.bank.toNat flow.priority)))) := by
  obtain ⟨next, run, facts, learned⟩ := (standing.grown flow.bank.toNat).learnFields orders fd
  obtain ⟨b, isBank, levels⟩ := t.grown_bank flow.bank.toNat
  have inside : flow.bank.toNat < next.banks.length := by
    rw [← learned.banks.length_eq]
    exact (List.getElem?_eq_some_iff.mp isBank).1
  have present := List.getElem?_eq_getElem inside
  obtain ⟨old, isOld, ids, arranged, -, rekeyed⟩ := forall₂_getElem? learned.banks present
  obtain rfl : b = old := Option.some_inj.mp (isBank.symm.trans isOld)
  have held : (next.banks[flow.bank.toNat]).contents = t.contents flow.bank.toNat := by
    rw [← t.contents_grown flow.bank.toNat, ← learned.contents]
    funext p
    simp [contents, present]
  have taken : t.Takes flow.bank.toNat flow.priority fd
      ((next.banks[flow.bank.toNat]).fieldsAt next.qualifierDesc.list flow.priority) := by
    rw [rekeyed.fieldsAt arranged, FlowBank.fieldsAt, levels, Takes]
    cases (t.banks[flow.bank.toNat]?).bind fun b => b.level? flow.priority with
    | some level => rfl
    | none => exact fun f member => (learned.qualifiers f).mpr (Or.inr member)
  obtain ⟨after, added, after', has, changed⟩ :=
    (facts.banks _ (List.getElem_mem inside)).addFlow sets flow.priority
      (fun f member => (learned.keys f).mpr (Or.inr member)) (fun q => new _ q taken) actions
  have accepts : (next.banks[flow.bank.toNat]).Accepts sets next.qualifierDesc.list.fields
      flow.priority fd ↔ t.Accepts sets flow.bank.toNat flow.priority fd := by
    rw [rekeyed.accepts arranged, FlowBank.Accepts, levels, Accepts]
    cases (t.banks[flow.bank.toNat]?).bind fun b => b.level? flow.priority with
    | some level => exact Iff.rfl
    | none =>
      -- The table has learned the qualifier fields of the flow by now.
      constructor
      · intro all f s isSet
        refine all f ((learned.qualifiers f).mpr (Or.inr ?_)) s isSet
        exact AList.lookup_isSome.mp (by rw [isSet]; rfl)
      · exact fun all f _ s isSet => all f s isSet
  refine ⟨{ next with banks := next.banks.set flow.bank.toNat after }, ?_,
    facts.setBank flow.bank.toNat after', ?_, learned.actions, ?_, fun accepted alike => ?_⟩
  · simp only [Table.addEntry, made]
    rw [show ({ t with banks := _ } : Table A) = t.grown flow.bank.toNat from rfl, run,
      Outcome.ok_bind]
    simp only [present, added, Outcome.ok_bind]
    rfl
  · rw [← accepts, ← has]
    simp [Has, inside]
  · rw [List.length_set, learned.banks.length_eq]
  · rw [← held] at alike ⊢
    rw [contents_setBank inside, changed (accepts.mpr accepted) alike, learned.contents,
      contents_grown]

end

theorem Standing.removeEntry_cases (flow : FlowEntryDesc) :
    (∃ message, t.removeEntry (some flow) = .error message ∧
        ∀ fd, newDesc flow.fields flow.qualifiers = .ok fd →
          Map.HashesAlike fd (t.contents flow.bank.toNat flow.priority) →
          Map.removeFlow fd (t.contents flow.bank.toNat flow.priority) =
            t.contents flow.bank.toNat flow.priority) ∨
      ∃ fd after, newDesc flow.fields flow.qualifiers = .ok fd ∧
        t.removeEntry (some flow) = .ok after ∧ after.Standing maxSize E ∧
        after.actions = t.actions ∧ after.banks.length = t.banks.length ∧
        (Map.HashesAlike fd (t.contents flow.bank.toNat flow.priority) →
          after.contents = Function.update t.contents flow.bank.toNat
            (Function.update (t.contents flow.bank.toNat) flow.priority
              (Map.removeFlow fd (t.contents flow.bank.toNat flow.priority)))) := by
  rw [Table.removeEntry]
  cases present : t.banks[flow.bank.toNat]? with
  | none => exact Or.inl ⟨_, rfl, fun _ _ _ => by simp [contents, present, Map.removeFlow]⟩
  | some bank =>
    have held : t.contents flow.bank.toNat = bank.contents := by
      funext p
      simp [contents, present]
    have facts := standing.banks bank (List.mem_of_getElem? present)
    rw [held]
    cases found : bank.levels.lookup flow.priority with
    | none =>
      simp only [found]
      exact Or.inl ⟨_, rfl, fun _ _ _ => by rw [FlowBank.contents_none found]; rfl⟩
    | some id =>
      obtain ⟨level, node, -⟩ := facts.choose_spec.level found
      simp only [found, node]
      rcases newDesc_returns flow with ⟨fd, made⟩ | ⟨message, failed⟩
      · simp only [made, Outcome.ok_bind]
        rcases facts.removeFlow found node fd with
          ⟨message, failed, same⟩ | ⟨after, gone, kept, changed⟩
        · exact Or.inl ⟨message, by rw [failed]; rfl, by rintro _ ⟨⟩; exact same⟩
        · refine Or.inr ⟨fd, { t with banks := t.banks.set flow.bank.toNat after }, rfl,
            by rw [gone]; rfl, standing.setBank _ kept, rfl, List.length_set, fun alike => ?_⟩
          rw [contents_setBank (List.getElem?_eq_some_iff.mp present).1, changed alike]
      · simp only [failed]
        exact Or.inl ⟨_, rfl, by rintro _ ⟨⟩⟩

theorem Standing.removeEntry (entry : Option FlowEntryDesc) :
    (t.removeEntry entry).Allows (Table.Standing maxSize E) := by
  cases entry with
  | none => exact Or.inr ⟨_, rfl⟩
  | some flow =>
    rcases standing.removeEntry_cases flow with ⟨message, failed, -⟩ | ⟨fd, after, -, removed, kept, -⟩
    · exact Or.inr ⟨message, failed⟩
    · exact Or.inl ⟨after, removed, kept⟩

end Requests

def Suits (sets : Sets) (E : Desc → EntryQualifier → Prop) (t : Table A) : Op A → Prop
  | .addEntry _ (some flow) (.ok _) => ∀ fd l q, newDesc flow.fields flow.qualifiers = .ok fd →
    t.Takes flow.bank.toNat flow.priority fd l → l.makeEntryQualifier sets fd = .ok q → E fd q
  | _ => True

theorem Standing.step (standing : t.Standing maxSize E) (sets : Sets) {op : Op A}
    (suits : t.Suits sets E op) : (t.step sets maxSize op).Yields (Table.Standing maxSize E) := by
  cases op with
  | addEntry orders entry actions =>
    cases entry with
    | none => exact ⟨t, rfl, standing⟩
    | some flow =>
      rcases newDesc_returns flow with ⟨fd, made⟩ | ⟨message, failed⟩
      · cases actions with
        | error message =>
          obtain ⟨after, run, facts, -⟩ := standing.addEntry_refused sets orders made message
          exact ⟨after, by rw [Table.step, run]; rfl, facts⟩
        | ok actions =>
          obtain ⟨after, run, facts, -⟩ := standing.addEntry_done sets orders made
            (fun l q => suits fd l q made) actions
          exact ⟨after, by rw [Table.step, run]; rfl, facts⟩
      · refine ⟨t.grown flow.bank.toNat, ?_, standing.grown _⟩
        simp only [Table.step, Table.addEntry, failed]
        rfl
  | removeEntry entry =>
    rw [Table.step]
    rcases standing.removeEntry entry with ⟨after, removed, facts⟩ | ⟨message, failed⟩
    · exact ⟨after, by rw [removed]; rfl, facts⟩
    · exact ⟨t, by rw [failed]; rfl, standing⟩
  | clear => exact ⟨t.clear, rfl, standing.clear⟩

inductive Reached (maxSize : FieldID → Nat) : Table A → Prop where
  | build (bankCount : Nat) (actions : List A) : Reached maxSize (build bankCount actions)
  | step {t after : Table A} (reached : Reached maxSize t) {sets : Sets} {op : Op A}
      (stepped : t.step sets maxSize op = .ok after) : Reached maxSize after

abbrev Any : Desc → EntryQualifier → Prop := fun _ _ => True

theorem suits_any (sets : Sets) (t : Table A) (op : Op A) : t.Suits sets Any op := by
  unfold Suits
  split
  · exact fun _ _ _ _ _ _ => trivial
  · exact trivial

theorem Reached.standing (reached : t.Reached maxSize) : t.Standing maxSize Any := by
  induction reached with
  | build bankCount actions => exact build_standing bankCount actions
  | @step t after _ sets op stepped ih =>
    obtain ⟨other, run, facts⟩ := ih.step sets (suits_any sets t op)
    cases run.symm.trans stepped
    exact facts

theorem structures_agree (reached : t.Reached maxSize) :
    (∀ b ∈ t.banks, ∃ levels, b.Arranged (fun m => ∃ entries, m.Keyed maxSize Any entries) levels) ∧
      ∀ (sets : Sets) (op : Op A), ∃ after, t.step sets maxSize op = .ok after := by
  refine ⟨fun b member => ?_, fun sets op => ?_⟩
  · obtain ⟨levels, arranged⟩ := reached.standing.banks b member
    exact ⟨levels, arranged.imp fun m standing => ⟨m.ids, standing.keyed.imp fun _ _ _ => trivial⟩⟩
  · obtain ⟨after, run, -⟩ := reached.standing.step sets (suits_any sets t op)
    exact ⟨after, run⟩

theorem structures_agree_one_flow :
    ∃ t : Table Nat, (∃ b ∈ t.banks, b.levels.lookup 2 = some 0) ∧
      (∀ b ∈ t.banks, ∃ levels, b.Arranged (fun m => ∃ entries, m.Keyed (fun _ => 1) Any entries) levels) ∧
      ∀ (sets : Sets) (op : Op Nat), ∃ after, t.step sets (fun _ => 1) op = .ok after :=
  ⟨_, ⟨_, List.mem_cons_self, rfl⟩, structures_agree (@Reached.step Nat _ _ _ (.build 1 []) (fun _ => none)
    (.addEntry ⟨.id, .id⟩ (some ⟨0, 2, [], []⟩) (.ok [7])) rfl)⟩

theorem newDesc_keysOnly {flow : FlowEntryDesc} {fd : Desc} (keysOnly : flow.qualifiers = [])
    (built : newDesc flow.fields flow.qualifiers = .ok fd) : fd.qualifiers = ∅ := by
  rw [keysOnly, newDesc] at built
  obtain ⟨⟨keys, hash⟩, -, built⟩ := Outcome.bind_eq_ok.mp built
  cases built
  rfl

theorem accepts_keysOnly (bare : fd.qualifiers = ∅) (sets : Sets) (t : Table A) (bank : Nat)
    (p : UInt32) : t.Accepts sets bank p fd := by
  rw [Accepts, bare]
  split
  · exact Or.inr (by rw [bare]; rintro f - s ⟨⟩)
  · rintro f s ⟨⟩

theorem Standing.addEntry (standing : t.Standing maxSize Any) (sets : Sets) (orders : Orders)
    {flow : FlowEntryDesc} (keysOnly : flow.qualifiers = []) (actions : Except String (List A)) :
    (t.addEntry sets maxSize orders (some flow) actions).Yields fun result =>
      result.1.Standing maxSize Any ∧ (result.2 ≠ none → result.1.contents = t.contents) ∧
      (result.2 = none → ∃ fd added, newDesc flow.fields flow.qualifiers = .ok fd ∧
        actions = .ok added ∧
        (Map.Absent fd (t.contents flow.bank.toNat flow.priority) →
          result.1.contents = Function.update t.contents flow.bank.toNat
            (Function.update (t.contents flow.bank.toNat) flow.priority
              ((fd, added) :: t.contents flow.bank.toNat flow.priority)))) := by
  rcases newDesc_returns flow with ⟨fd, made⟩ | ⟨message, failed⟩
  · cases actions with
    | error message =>
      obtain ⟨after, run, facts, learned⟩ := standing.addEntry_refused sets orders made message
      exact ⟨_, run, facts, fun _ => learned.contents.trans (t.contents_grown _), by rintro ⟨⟩⟩
    | ok added =>
      obtain ⟨after, run, facts, -, -, -, contents⟩ := standing.addEntry_done sets orders made
        (fun _ _ _ _ => trivial) added
      refine ⟨_, run, facts, by simp, fun _ => ⟨fd, added, made, rfl, fun absent => ?_⟩⟩
      rw [contents (accepts_keysOnly (newDesc_keysOnly keysOnly made) sets t _ _)
        fun flow stored same => by simp [absent flow stored] at same, Map.addFlow_absent absent]
  · refine ⟨(t.grown flow.bank.toNat, some message), by simp only [Table.addEntry, failed]; rfl,
      standing.grown _, fun _ => t.contents_grown _, by rintro ⟨⟩⟩

end Table

end Lemming.Flow
