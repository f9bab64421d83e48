import Lemming.Flow.Desc
import Lemming.Shared.HashChain

set_option autoImplicit false

namespace Lemming.Flow

open Packet Shared

variable {A : Type}

structure Entry (A : Type) where
  desc : Desc
  actions : List A
  key : EntryKey
  qualifier : EntryQualifier

-- A flow map with the entries it has allocated; a pointer to an entry is the number of its allocation.
-- The links of the hash table and of the sequential list are the pointers that the entries hold.
structure Map (A : Type) where
  entries : Nat → Option (Entry A)
  allocated : Nat
  hash : GoMap UInt32 Nat
  hashLinks : Links Nat
  seqLinks : Links Nat
  seqHead : Option Nat
  seqTail : Option Nat
  keyFields : FieldList
  qualifierFields : FieldList
  count : Int

namespace Map

def newMap (keyFields qualifierFields : FieldList) : Map A where
  entries := fun _ => none
  allocated := 0
  hash := ∅
  hashLinks := Links.none
  seqLinks := Links.none
  seqHead := none
  seqTail := none
  keyFields
  qualifierFields
  count := 0

variable (m : Map A)

def describes (fd : Desc) (id : Nat) : Bool :=
  match m.entries id with
  | none => false
  | some entry => fd.equal entry.desc

def find (fd : Desc) : Outcome (Option Nat) :=
  m.hashLinks.search (m.describes fd) m.allocated (m.hash.lookup fd.hash)

def modify (id : Nat) (change : Entry A → Entry A) : Map A :=
  { m with entries := Function.update m.entries id ((m.entries id).map change) }

def admits (sets : Sets) (key : PacketKey) (qualifier : PacketQualifier) (m : Map A) (id : Nat) :
    Bool :=
  match m.entries id with
  | none => false
  | some entry => entry.key.match key && entry.qualifier.match sets qualifier

def push (entry : Entry A) : Map A :=
  let id := m.allocated
  { m with
    entries := Function.update m.entries id (some entry)
    allocated := id + 1
    hashLinks := m.hashLinks.pushFront (m.hash.lookup entry.desc.hash) id
    hash := m.hash.insert entry.desc.hash id
    seqLinks := m.seqLinks.pushFront m.seqHead id
    seqHead := some id
    seqTail := m.seqTail.or (some id)
    count := m.count + 1 }

def drop (b : UInt32) (id : Nat) : Map A :=
  { m with
    hashLinks := m.hashLinks.unlink id
    hash :=
      match m.hashLinks.prev id, m.hashLinks.next id with
      | some _, _ => m.hash
      | none, none => m.hash.erase b
      | none, some after => m.hash.insert b after
    seqLinks := m.seqLinks.unlink id
    seqHead := if m.seqHead = some id then m.seqLinks.next id else m.seqHead
    seqTail := if m.seqTail = some id then m.seqLinks.prev id else m.seqTail
    count := m.count - 1 }

def add (sets : Sets) (maxSize : FieldID → Nat) (m : Map A) (fd : Desc) (actions : List A) :
    Outcome (Map A) := do
  match ← m.find fd with
  | some id => return m.modify id fun entry => { entry with actions }
  | none =>
    let qualifier ← m.qualifierFields.makeEntryQualifier sets fd
    let key := m.keyFields.makeEntryKey maxSize fd
    return m.push { desc := fd, actions, key, qualifier }

def remove (fd : Desc) : Outcome (Map A) := do
  match ← m.find fd with
  | none => .error "FlowMap: remove failed, cannot find flow"
  | some id => return m.drop fd.hash id

-- The walk goes from the tail along the backward pointers, which the rebuilt keys do not touch.
def rebuild (maxSize : FieldID → Nat) (m : Map A) (kd : FieldList) : Outcome (Map A) := do
  let ids ← m.seqLinks.flip.walk m.allocated m.seqTail
  let m := ids.foldl
    (fun m id => m.modify id fun entry => { entry with key := kd.makeEntryKey maxSize entry.desc }) m
  return { m with keyFields := kd }

end Map

def Map.match (sets : Sets) (m : Map A) (key : PacketKey) (qualifier : PacketQualifier) :
    Outcome (Option (Desc × List A)) := do
  let found ← m.seqLinks.search (m.admits sets key qualifier) m.allocated m.seqHead
  return (found.bind m.entries).map fun entry => (entry.desc, entry.actions)

namespace Map

def hashOf (m : Map A) (id : Nat) : Option UInt32 :=
  (m.entries id).map fun entry => entry.desc.hash

def bucket (m : Map A) (ids : List Nat) (h : UInt32) : List Nat :=
  ids.filter fun id => m.hashOf id == some h

def flow? (m : Map A) (id : Nat) : Option (Desc × List A) :=
  (m.entries id).map fun entry => (entry.desc, entry.actions)

def flows (m : Map A) (ids : List Nat) : List (Desc × List A) :=
  ids.filterMap m.flow?

-- The entries of a map, newest first: the sequential list has all of them, and the chain of a hash
-- value those that have it. Their keys are made from the fields of the map, and `R` holds of their
-- flows and qualifiers.
structure Keyed (maxSize : FieldID → Nat) (R : Desc → EntryQualifier → Prop) (m : Map A)
    (ids : List Nat) : Prop where
  distinct : ids.Nodup
  bound : ∀ id ∈ ids, id < m.allocated
  present : ∀ id ∈ ids, ∃ entry, m.entries id = some entry ∧
    entry.key = m.keyFields.makeEntryKey maxSize entry.desc ∧ R entry.desc entry.qualifier
  seq : Listed m.seqLinks m.seqHead m.seqTail ids
  chained : Chained m.hash m.hashLinks m.hashOf ids
  count : m.count = ids.length

def ids (m : Map A) : List Nat :=
  match m.seqLinks.walk m.allocated m.seqHead with
  | .ok ids => ids
  | _ => []

def contents (m : Map A) : List (Desc × List A) :=
  m.flows m.ids

variable {maxSize : FieldID → Nat} {R R' : Desc → EntryQualifier → Prop} {m after : Map A}
  {ids : List Nat} {fd : Desc}

theorem newMap_keyed (keyFields qualifierFields : FieldList) :
    (newMap keyFields qualifierFields : Map A).Keyed maxSize R [] where
  distinct := List.nodup_nil
  bound := by simp
  present := by simp
  seq := .nil _
  chained := ⟨fun _ => trivial, fun _ => rfl⟩
  count := rfl

namespace Keyed

section

variable (keyed : m.Keyed maxSize R ids)
include keyed

theorem imp (weaken : ∀ fd q, R fd q → R' fd q) :
    m.Keyed maxSize R' ids :=
  { keyed with
    present := fun id member => by
      obtain ⟨entry, present, made, facts⟩ := keyed.present id member
      exact ⟨entry, present, made, weaken _ _ facts⟩ }

theorem length_le : ids.length ≤ m.allocated := by
  have inside : ids ⊆ List.range m.allocated := fun id member =>
    List.mem_range.mpr (keyed.bound id member)
  simpa using (List.subperm_of_subset keyed.distinct inside).length_le

theorem ids_eq : m.ids = ids := by
  rw [Map.ids, keyed.seq.head_eq, keyed.seq.linked.walk_correct keyed.length_le]

theorem own : m.Keyed maxSize R m.ids := by
  rw [keyed.ids_eq]
  exact keyed

theorem contents_eq : m.contents = m.flows ids := by
  rw [contents, keyed.ids_eq]

theorem find_eq (fd : Desc) :
    m.find fd = .ok ((m.bucket ids fd.hash).find? (m.describes fd)) := by
  have short : (m.bucket ids fd.hash).length ≤ m.allocated :=
    (List.length_filter_le _ _).trans keyed.length_le
  rw [find, keyed.chained.heads]
  exact (keyed.chained.chain fd.hash).search_correct (m.describes fd) short

end

theorem contents_nil (keyed : m.Keyed maxSize R m.ids) (last : m.count = 0) : m.contents = [] := by
  have none : m.ids = [] := List.length_eq_zero_iff.mp (by have := keyed.count; omega)
  rw [contents, none]
  rfl

theorem of_contents (keyed : m.Keyed maxSize R ids) {flow : Desc × List A}
    (member : flow ∈ m.flows ids) : ∃ q, R flow.1 q := by
  obtain ⟨id, inside, found⟩ := List.mem_filterMap.mp member
  obtain ⟨entry, present, -, facts⟩ := keyed.present id inside
  rw [flow?, present] at found
  cases found
  exact ⟨_, facts⟩

end Keyed

def addFlow (fd : Desc) (actions : List A) (flows : List (Desc × List A)) : List (Desc × List A) :=
  if flows.any fun flow => fd.equal flow.1 then
    flows.replaceF fun flow => if fd.equal flow.1 then some (flow.1, actions) else none
  else (fd, actions) :: flows

def removeFlow (fd : Desc) (flows : List (Desc × List A)) : List (Desc × List A) :=
  flows.eraseP fun flow => fd.equal flow.1

theorem replaceF_split {α : Type} {f : α → Option α} {front back : List α} {x y : α}
    (before : ∀ z ∈ front, f z = none) (here : f x = some y) :
    (front ++ x :: back).replaceF f = front ++ y :: back := by
  induction front with
  | nil => simp [here]
  | cons z zs ih =>
    have rest := ih fun w member => before w (List.mem_cons_of_mem z member)
    simp [before z List.mem_cons_self, rest]

theorem flows_append (m : Map A) (front back : List Nat) :
    m.flows (front ++ back) = m.flows front ++ m.flows back := by
  simp [flows]

variable {id : Nat} {entry : Entry A}

theorem flows_cons (here : m.entries id = some entry)
    (back : List Nat) : m.flows (id :: back) = (entry.desc, entry.actions) :: m.flows back := by
  simp [flows, flow?, here]

theorem flows_congr {first second : Map A}
    (same : ∀ id ∈ ids, second.flow? id = first.flow? id) : second.flows ids = first.flows ids :=
  List.filterMap_congr same

theorem not_describes {fd : Desc} (others : ∀ id ∈ ids, m.describes fd id = false)
    (flow : Desc × List A) (member : flow ∈ m.flows ids) : fd.equal flow.1 = false := by
  obtain ⟨id, inside, found⟩ := List.mem_filterMap.mp member
  obtain ⟨entry, present, rfl⟩ := Option.map_eq_some_iff.mp found
  simpa [describes, present] using others id inside

theorem describes_split {fd : Desc} (found : ids.find? (m.describes fd) = some id) :
    ∃ front back entry, ids = front ++ id :: back ∧ m.entries id = some entry ∧
      fd.equal entry.desc = true ∧ ∀ other ∈ front, m.describes fd other = false := by
  obtain ⟨here, front, back, split, before⟩ := List.find?_eq_some_iff_append.mp found
  cases present : m.entries id with
  | none => simp [describes, present] at here
  | some entry =>
    refine ⟨front, back, entry, split, rfl, by simpa [describes, present] using here, ?_⟩
    intro other member
    simpa using before other member

theorem flows_modify {front back : List Nat} (distinct : (front ++ id :: back).Nodup)
    (present : m.entries id = some entry) (change : Entry A → Entry A) :
    (m.modify id change).flows (front ++ id :: back) = m.flows front ++
      ((change entry).desc, (change entry).actions) :: m.flows back := by
  obtain ⟨-, rest, apart⟩ := List.nodup_append.mp distinct
  have here : (m.modify id change).entries id = some (change entry) := by simp [modify, present]
  have frame (other : Nat) (different : other ≠ id) :
      (m.modify id change).flow? other = m.flow? other := by simp [modify, flow?, different]
  rw [flows_append, flows_cons here]
  congr 1
  · exact flows_congr fun other member => frame other (apart other member id List.mem_cons_self)
  · congr 1
    refine flows_congr fun other member => frame other ?_
    rintro rfl
    exact (List.nodup_cons.mp rest).1 member

theorem Keyed.modify (keyed : m.Keyed maxSize R ids) (id : Nat) {change : Entry A → Entry A}
    (desc : ∀ entry, (change entry).desc = entry.desc)
    (qualifier : ∀ entry, (change entry).qualifier = entry.qualifier)
    (key : ∀ entry, entry.key = m.keyFields.makeEntryKey maxSize entry.desc →
      (change entry).key = m.keyFields.makeEntryKey maxSize entry.desc) :
    (m.modify id change).Keyed maxSize R ids := by
  refine { keyed with present := ?_, chained := keyed.chained.congr ?_ }
  · intro other member
    obtain ⟨entry, present, made, facts⟩ := keyed.present other member
    by_cases same : other = id
    · subst same
      refine ⟨change entry, by simp [Map.modify, present], ?_⟩
      rw [key entry made, desc, qualifier]
      exact ⟨rfl, facts⟩
    · exact ⟨entry, by simp [Map.modify, same, present], made, facts⟩
  · intro other _
    by_cases same : other = id
    · subst same
      cases present : m.entries other <;> simp [hashOf, Map.modify, present, desc]
    · simp [hashOf, Map.modify, same]

theorem Keyed.setActions (keyed : m.Keyed maxSize R ids) (id : Nat) (actions : List A) :
    (m.modify id fun entry => { entry with actions }).Keyed maxSize R ids :=
  keyed.modify id (fun _ => rfl) (fun _ => rfl) fun _ made => made

theorem Keyed.push (keyed : m.Keyed maxSize R ids)
    (made : entry.key = m.keyFields.makeEntryKey maxSize entry.desc)
    (facts : R entry.desc entry.qualifier) : (m.push entry).Keyed maxSize R (m.allocated :: ids) := by
  have fresh : m.allocated ∉ ids := fun member => Nat.lt_irrefl _ (keyed.bound _ member)
  have different {id : Nat} (member : id ∈ ids) : id ≠ m.allocated :=
    fun same => fresh (same ▸ member)
  constructor
  case distinct => exact List.nodup_cons.mpr ⟨fresh, keyed.distinct⟩
  case bound =>
    intro id member
    rcases List.mem_cons.mp member with rfl | old
    · exact Nat.lt_succ_self _
    · exact Nat.lt_succ_of_lt (keyed.bound id old)
  case present =>
    intro id member
    rcases List.mem_cons.mp member with rfl | old
    · exact ⟨entry, by simp [Map.push], made, facts⟩
    · obtain ⟨there, present, known⟩ := keyed.present id old
      exact ⟨there, by simp [Map.push, different old, present], known⟩
  case seq =>
    simp only [Map.push, keyed.seq.head_eq, keyed.seq.tail_eq]
    refine ⟨keyed.seq.linked.pushFront keyed.distinct fresh, rfl, ?_⟩
    rw [← Links.getLast?_or_cons m.allocated ids none, Option.or_none]
  case chained =>
    have old : Chained m.hash m.hashLinks (m.push entry).hashOf ids :=
      keyed.chained.congr fun id member => by simp [Map.push, hashOf, different member]
    exact old.push keyed.distinct fresh (by simp [Map.push, hashOf])
  case count => simp [Map.push, keyed.count]

theorem Keyed.contents_push (keyed : m.Keyed maxSize R m.ids)
    (made : entry.key = m.keyFields.makeEntryKey maxSize entry.desc)
    (facts : R entry.desc entry.qualifier) :
    (m.push entry).contents = (entry.desc, entry.actions) :: m.contents := by
  rw [(keyed.push made facts).contents_eq, flows_cons (show _ = some entry by simp [Map.push])]
  congr 1
  refine flows_congr fun id member => ?_
  have different : id ≠ m.allocated := fun same => Nat.lt_irrefl _ (keyed.bound _ (same ▸ member))
  simp [Map.push, flow?, different]

theorem Keyed.drop {front back : List Nat} (keyed : m.Keyed maxSize R (front ++ id :: back))
    {b : UInt32} (hash : m.hashOf id = some b) :
    (m.drop b id).Keyed maxSize R (front ++ back) := by
  have subset : (front ++ back).Sublist (front ++ id :: back) :=
    (List.Sublist.refl front).append (List.sublist_cons_self id back)
  constructor
  case distinct => exact subset.nodup keyed.distinct
  case bound => exact fun other member => keyed.bound other (subset.subset member)
  case present => exact fun other member => keyed.present other (subset.subset member)
  case seq => exact keyed.seq.unlink keyed.distinct
  case chained =>
    have dropped := keyed.chained.drop keyed.distinct hash
    have bypassed : (m.drop b id).hash =
        GoMap.bypass m.hash b (m.hashLinks.prev id) (m.hashLinks.next id) := by
      rw [Map.drop]
      dsimp only
      cases m.hashLinks.prev id with
      | some _ => rfl
      | none => cases m.hashLinks.next id <;> rfl
    rw [bypassed]
    exact dropped
  case count =>
    simp only [Map.drop, keyed.count, List.length_append, List.length_cons]
    omega

theorem mem_bucket_find (found : (m.bucket ids fd.hash).find? (m.describes fd) = some id) :
    id ∈ ids ∧ m.hashOf id = some fd.hash ∧ m.describes fd id = true :=
  have member := mem_bucketOf.mp (List.mem_of_find?_eq_some found)
  ⟨member.1, member.2, List.find?_some found⟩

theorem Keyed.remove_cases (keyed : m.Keyed maxSize R ids) (fd : Desc) :
    ((m.bucket ids fd.hash).find? (m.describes fd) = none ∧ ∃ message, m.remove fd = .error message) ∨
      ∃ id front back, (m.bucket ids fd.hash).find? (m.describes fd) = some id ∧
        ids = front ++ id :: back ∧ m.remove fd = .ok (m.drop fd.hash id) ∧
        (m.drop fd.hash id).Keyed maxSize R (front ++ back) := by
  rw [Map.remove, keyed.find_eq, Outcome.ok_bind]
  cases found : (m.bucket ids fd.hash).find? (m.describes fd) with
  | none => exact Or.inl ⟨rfl, _, rfl⟩
  | some id =>
    obtain ⟨member, hash, -⟩ := mem_bucket_find found
    obtain ⟨front, back, rfl⟩ := List.append_of_mem member
    exact Or.inr ⟨id, front, back, rfl, rfl, rfl, keyed.drop hash⟩

def HashesAlike (fd : Desc) (flows : List (Desc × List A)) : Prop :=
  ∀ flow ∈ flows, fd.equal flow.1 = true → flow.1.hash = fd.hash

theorem HashesAlike.find (alike : HashesAlike fd (m.flows ids)) :
    (m.bucket ids fd.hash).find? (m.describes fd) = ids.find? (m.describes fd) := by
  rw [bucket, List.find?_filter]
  refine List.find?_congr fun id member => ?_
  cases present : m.entries id with
  | none => simp [describes, present]
  | some entry =>
    cases equal : fd.equal entry.desc with
    | false => simp [describes, present, equal]
    | true =>
      have flow : (entry.desc, entry.actions) ∈ m.flows ids :=
        List.mem_filterMap.mpr ⟨id, member, by simp [flow?, present]⟩
      simpa [describes, hashOf, present, equal] using alike _ flow equal

theorem Keyed.contents_setActions (keyed : m.Keyed maxSize R m.ids)
    (alike : HashesAlike fd m.contents)
    (found : (m.bucket m.ids fd.hash).find? (m.describes fd) = some id) (actions : List A) :
    (m.modify id fun entry => { entry with actions }).contents = addFlow fd actions m.contents := by
  rw [alike.find] at found
  obtain ⟨front, back, entry, split, present, equal, before⟩ := describes_split found
  have old : m.contents = m.flows front ++ (entry.desc, entry.actions) :: m.flows back := by
    rw [contents, split, flows_append, flows_cons present]
  rw [(keyed.setActions id actions).contents_eq, split, flows_modify (split ▸ keyed.distinct) present,
    addFlow, if_pos (by simp [old, equal]), old]
  refine (replaceF_split (fun flow member => ?_) (by simp [equal])).symm
  simp [not_describes before flow member]

def Absent (fd : Desc) (flows : List (Desc × List A)) : Prop :=
  ∀ flow ∈ flows, fd.equal flow.1 = false

theorem addFlow_absent {flows : List (Desc × List A)} (absent : Absent fd flows)
    (actions : List A) : addFlow fd actions flows = (fd, actions) :: flows := by
  refine if_neg fun any => ?_
  obtain ⟨flow, member, equal⟩ := List.any_eq_true.mp any
  simp [absent flow member] at equal

theorem not_found_absent (alike : HashesAlike fd (m.flows ids))
    (missing : (m.bucket ids fd.hash).find? (m.describes fd) = none) :
    Absent fd (m.flows ids) := by
  rw [alike.find] at missing
  exact not_describes (by simpa using List.find?_eq_none.mp missing)

theorem Keyed.contents_drop (keyed : m.Keyed maxSize R m.ids) (alike : HashesAlike fd m.contents)
    (found : (m.bucket m.ids fd.hash).find? (m.describes fd) = some id) :
    (m.drop fd.hash id).contents = removeFlow fd m.contents := by
  have hash := (mem_bucket_find found).2.1
  rw [alike.find] at found
  obtain ⟨front, back, entry, split, present, equal, before⟩ := describes_split found
  have rest : ∀ flow ∈ m.flows front, ¬ fd.equal flow.1 = true := by
    intro flow member
    simp [not_describes before flow member]
  rw [split] at keyed
  rw [(keyed.drop hash).contents_eq, removeFlow, contents, split, flows_append m front,
    flows_cons present, List.eraseP_append_right _ rest]
  show m.flows (front ++ back) = _
  simp [equal, flows_append]

theorem foldl_modify (change : Entry A → Entry A) (ids : List Nat) (m : Map A)
    (distinct : ids.Nodup) :
    ids.foldl (fun m id => m.modify id change) m =
      { m with entries := fun id => if id ∈ ids then (m.entries id).map change else m.entries id } := by
  induction ids generalizing m with
  | nil => simp
  | cons id rest ih =>
    obtain ⟨fresh, distinct⟩ := List.nodup_cons.mp distinct
    rw [List.foldl_cons, ih _ distinct]
    simp only [modify, Map.mk.injEq, and_true]
    funext other
    by_cases same : other = id
    · subst same
      simp [fresh]
    · simp [same]

def rekeyed (maxSize : FieldID → Nat) (kd : FieldList) (ids : List Nat) (m : Map A) : Map A :=
  { m with
    entries := fun id => if id ∈ ids then (m.entries id).map fun entry : Entry A =>
      { entry with key := kd.makeEntryKey maxSize entry.desc } else m.entries id
    keyFields := kd }

theorem Keyed.rebuild_eq (keyed : m.Keyed maxSize R ids) (kd : FieldList) :
    m.rebuild maxSize kd = .ok (m.rekeyed maxSize kd ids) := by
  have tail : m.seqTail = ids.reverse.head? := by rw [List.head?_reverse, keyed.seq.tail_eq]
  have walked : m.seqLinks.flip.walk m.allocated m.seqTail = .ok ids.reverse := by
    rw [tail]
    exact keyed.seq.linked.flip.walk_correct (by simpa using keyed.length_le)
  have folded := foldl_modify
    (fun entry : Entry A => { entry with key := kd.makeEntryKey maxSize entry.desc })
    ids.reverse m (List.nodup_reverse.mpr keyed.distinct)
  simp only [List.mem_reverse] at folded
  rw [Map.rebuild, walked, Outcome.ok_bind, folded]
  rfl

theorem rekeyed_entries {kd : FieldList} (member : id ∈ ids) (present : m.entries id = some entry) :
    (m.rekeyed maxSize kd ids).entries id =
      some { entry with key := kd.makeEntryKey maxSize entry.desc } := by
  simp [rekeyed, member, present]

theorem Keyed.rekeyed (keyed : m.Keyed maxSize R ids) (kd : FieldList) :
    (m.rekeyed maxSize kd ids).Keyed maxSize R ids := by
  refine { keyed with present := ?_, chained := keyed.chained.congr ?_ }
  · intro id member
    obtain ⟨entry, present, -, facts⟩ := keyed.present id member
    exact ⟨_, rekeyed_entries member present, rfl, facts⟩
  · intro id member
    cases present : m.entries id <;> simp [hashOf, Map.rekeyed, member, present]

theorem Keyed.contents_rekeyed (keyed : m.Keyed maxSize R m.ids) (kd : FieldList) :
    (m.rekeyed maxSize kd m.ids).contents = m.contents := by
  rw [(keyed.rekeyed kd).contents_eq]
  refine flows_congr fun id member => ?_
  obtain ⟨old, present, -⟩ := keyed.present id member
  simp [flow?, rekeyed_entries member present, present]

end Map

end Lemming.Flow
