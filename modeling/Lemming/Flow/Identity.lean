import Lemming.Flow.Map

set_option autoImplicit false

namespace Lemming.Flow

open Packet Shared

variable {A : Type} {maxSize : FieldID → Nat}

def written (keys : List PacketFieldMaskedBytes) : Bytes :=
  keys.flatMap fun d =>
    d.bytes ++ (if d.masks.length ≠ 0 then d.masks else List.replicate d.bytes.length 0xFF)

theorem fnvWrite_append (hash : UInt32) (first second : Bytes) :
    fnvWrite hash (first ++ second) = fnvWrite (fnvWrite hash first) second :=
  List.foldl_append

theorem newFieldKey_mask {b m : Bytes} {field : FieldKey} (made : newFieldKey b m = .ok field) :
    field.mask = if m.length ≠ 0 then m else List.replicate b.length 0xFF := by
  unfold newFieldKey at made
  split at made
  · next given =>
    rw [if_pos given]
    split at made
    · cases made
      rfl
    · cases made
  · next missing =>
    rw [if_neg missing]
    cases made
    rfl

theorem newDescKeys_hash {keys : List PacketFieldMaskedBytes}
    {start built : GoMap FieldID FieldKey × UInt32}
    (made : newDescKeys keys start = .ok built) : built.2 = fnvWrite start.2 (written keys) := by
  induction keys generalizing start with
  | nil =>
    cases made
    rfl
  | cons d rest ih =>
    obtain ⟨held, hash⟩ := start
    rw [newDescKeys] at made
    obtain ⟨field, isField, made⟩ := Outcome.bind_eq_ok.mp made
    have split : written (d :: rest) = field.value ++ field.mask ++ written rest := by
      rw [newFieldKey_value isField, newFieldKey_mask isField]
      rfl
    rw [ih made, split, fnvWrite_append, fnvWrite_append]

theorem newDesc_hash {keys : List PacketFieldMaskedBytes} {qualifiers : List PacketFieldSet}
    {fd : Desc} (made : newDesc keys qualifiers = .ok fd) :
    fd.hash = fnvWrite fnvNew (written keys) := by
  rw [newDesc] at made
  obtain ⟨built, isBuilt, made⟩ := Outcome.bind_eq_ok.mp made
  cases made
  exact newDescKeys_hash isBuilt

namespace Desc

theorem equal_refl (d : Desc) : d.equal d = true :=
  (equal_iff d d).mpr ⟨rfl, rfl⟩

theorem equal_congr {d d' : Desc} (same : d.equal d' = true) (other : Desc) :
    d'.equal other = d.equal other := by
  rw [Bool.eq_iff_iff, equal_iff, equal_iff, ((equal_iff d d').mp same).1,
    ((equal_iff d d').mp same).2]

end Desc

namespace Map

variable {R : Desc → EntryQualifier → Prop} {m after : Map A} {ids : List Nat} {fd : Desc}

inductive Reached (maxSize : FieldID → Nat) : Map A → Prop where
  | new (keyFields qualifierFields : FieldList) : Reached maxSize (newMap keyFields qualifierFields)
  | add {m after : Map A} (reached : Reached maxSize m) {sets : Sets} {fd : Desc} {actions : List A}
      (added : m.add sets maxSize fd actions = .ok after) : Reached maxSize after
  | remove {m after : Map A} (reached : Reached maxSize m) {fd : Desc}
      (removed : m.remove fd = .ok after) : Reached maxSize after
  | rebuild {m after : Map A} (reached : Reached maxSize m) {kd : FieldList}
      (rebuilt : m.rebuild maxSize kd = .ok after) : Reached maxSize after

theorem Keyed.add_cases (keyed : m.Keyed maxSize R ids) {sets : Sets} {actions : List A}
    (added : m.add sets maxSize fd actions = .ok after) :
    (∃ id, (m.bucket ids fd.hash).find? (m.describes fd) = some id ∧
      after = m.modify id fun entry => { entry with actions }) ∨
    ((m.bucket ids fd.hash).find? (m.describes fd) = none ∧ ∃ qualifier,
      m.qualifierFields.makeEntryQualifier sets fd = .ok qualifier ∧
      after = m.push
        { desc := fd, actions, key := m.keyFields.makeEntryKey maxSize fd, qualifier }) := by
  rw [Map.add, keyed.find_eq, Outcome.ok_bind] at added
  split at added
  · next id found =>
    cases added
    exact Or.inl ⟨id, found, rfl⟩
  · next found =>
    obtain ⟨qualifier, made, added⟩ := Outcome.bind_eq_ok.mp added
    cases added
    exact Or.inr ⟨found, qualifier, made, rfl⟩

theorem Reached.keyed (reached : m.Reached maxSize) : ∃ ids, m.Keyed maxSize (fun _ _ => True) ids := by
  induction reached with
  | new keyFields qualifierFields => exact ⟨[], newMap_keyed keyFields qualifierFields⟩
  | add _ added ih =>
    obtain ⟨ids, keyed⟩ := ih
    rcases keyed.add_cases added with ⟨id, -, rfl⟩ | ⟨-, qualifier, -, rfl⟩
    · exact ⟨ids, keyed.setActions id _⟩
    · exact ⟨_, keyed.push rfl trivial⟩
  | @remove m after _ fd removed ih =>
    obtain ⟨ids, keyed⟩ := ih
    rcases keyed.remove_cases fd with ⟨-, message, failed⟩ | ⟨id, front, back, -, -, run, kept⟩
    · cases failed.symm.trans removed
    · cases run.symm.trans removed
      exact ⟨_, kept⟩
  | rebuild _ rebuilt ih =>
    obtain ⟨ids, keyed⟩ := ih
    cases rebuilt.symm.trans (keyed.rebuild_eq _)
    exact ⟨ids, keyed.rekeyed _⟩

theorem modify_kept (m : Map A) (id : Nat) (change : Entry A → Entry A)
    (desc : ∀ entry, (change entry).desc = entry.desc) (fd : Desc) :
    (m.modify id change).hashOf = m.hashOf ∧ (m.modify id change).describes fd = m.describes fd := by
  constructor
  all_goals
    funext other
    by_cases same : other = id
    · subst same
      cases present : m.entries other <;> simp [hashOf, describes, Map.modify, present, desc]
    · simp [hashOf, describes, Map.modify, same]

theorem find_modified (m : Map A) (ids : List Nat) (id : Nat) (actions : List A) (fd : Desc) :
    ((m.modify id fun entry => { entry with actions }).bucket ids fd.hash).find?
        ((m.modify id fun entry => { entry with actions }).describes fd) =
      (m.bucket ids fd.hash).find? (m.describes fd) := by
  obtain ⟨hashes, describes⟩ := modify_kept m id (fun entry => { entry with actions })
    (fun _ => rfl) fd
  rw [bucket, hashes, describes]
  rfl

theorem find_pushed (m : Map A) (ids : List Nat) (entry : Entry A) :
    ((m.push entry).bucket (m.allocated :: ids) entry.desc.hash).find?
      ((m.push entry).describes entry.desc) = some m.allocated := by
  have isHash : (m.push entry).hashOf m.allocated = some entry.desc.hash := by
    simp [Map.push, hashOf]
  rw [bucket, ← bucketOf, bucketOf_cons isHash, if_pos rfl, List.find?_cons_of_pos]
  simp [describes, Map.push, Desc.equal_refl]

theorem Keyed.find_added (keyed : m.Keyed maxSize (fun _ _ => True) ids) {sets : Sets}
    {actions : List A} (added : m.add sets maxSize fd actions = .ok after) :
    ∃ ids' id, after.Keyed maxSize (fun _ _ => True) ids' ∧
      (after.bucket ids' fd.hash).find? (after.describes fd) = some id := by
  rcases keyed.add_cases added with ⟨id, found, rfl⟩ | ⟨-, qualifier, -, rfl⟩
  · refine ⟨ids, id, keyed.setActions id actions, ?_⟩
    rw [find_modified]
    exact found
  · exact ⟨_, m.allocated, keyed.push rfl trivial, find_pushed m ids
      { desc := fd, actions, key := m.keyFields.makeEntryKey maxSize fd, qualifier }⟩

theorem describes_congr {d d' : Desc} (same : d.equal d' = true) (m : Map A) :
    m.describes d' = m.describes d := by
  funext id
  unfold describes
  split
  · rfl
  · exact Desc.equal_congr same _

-- A request of the flow updates the entry, and removes no other one.
structure Refers (sets : Sets) (maxSize : FieldID → Nat) (m : Map A) (fd : Desc) (id : Nat) : Prop where
  updates : ∀ actions, m.add sets maxSize fd actions =
    .ok (m.modify id fun entry => { entry with actions })
  removes : ∃ after, m.remove fd = .ok after ∧ after.ids = m.ids.erase id

theorem Keyed.refers_of_find (keyed : m.Keyed maxSize R ids) (sets : Sets) {id : Nat}
    (found : (m.bucket ids fd.hash).find? (m.describes fd) = some id) :
    m.Refers sets maxSize fd id where
  updates := by
    intro actions
    rw [Map.add, keyed.find_eq, Outcome.ok_bind, found]
    rfl
  removes := by
    rcases keyed.remove_cases fd with ⟨missing, -⟩ | ⟨other, front, back, isFound, split, run, kept⟩
    · cases missing.symm.trans found
    · cases isFound.symm.trans found
      refine ⟨_, run, ?_⟩
      rw [kept.ids_eq, keyed.ids_eq, split, List.erase_append_right _ ?_, List.erase_cons_head]
      intro inFront
      exact (List.nodup_append.mp (split ▸ keyed.distinct)).2.2 id inFront id List.mem_cons_self rfl

theorem Keyed.find_of_refers (keyed : m.Keyed maxSize R ids) {sets : Sets} {id : Nat}
    (refers : m.Refers sets maxSize fd id) :
    (m.bucket ids fd.hash).find? (m.describes fd) = some id := by
  obtain ⟨after, removed, less⟩ := refers.removes
  rcases keyed.remove_cases fd with ⟨-, message, failed⟩ | ⟨other, front, back, found, split, -⟩
  · cases failed.symm.trans removed
  · obtain ⟨after', removed', less'⟩ := (keyed.refers_of_find sets found).removes
    cases removed.symm.trans removed'
    rw [keyed.ids_eq] at less less'
    by_contra different
    have apart : other ≠ id := fun same => different (same ▸ found)
    have kept : other ∈ ids.erase id := (List.mem_erase_of_ne apart).mpr (mem_bucket_find found).1
    rw [← less, less'] at kept
    exact keyed.distinct.not_mem_erase kept

end Map

theorem reordered_refers_iff (sets : Sets) (maxSize : FieldID → Nat)
    (keys keys' : List PacketFieldMaskedBytes) (qualifiers qualifiers' : List PacketFieldSet)
    (d d' : Desc) (made : newDesc keys qualifiers = .ok d) (made' : newDesc keys' qualifiers' = .ok d')
    (equal : d.equal d' = true) (m m' : Map A) (reached : m.Reached maxSize) (actions : List A)
    (added : m.add sets maxSize d actions = .ok m') :
    (d.hash = d'.hash ↔ fnvWrite fnvNew (written keys) = fnvWrite fnvNew (written keys')) ∧
      ((∃ id, m'.Refers sets maxSize d id ∧ m'.Refers sets maxSize d' id) ↔
        fnvWrite fnvNew (written keys) = fnvWrite fnvNew (written keys')) := by
  rw [← newDesc_hash made, ← newDesc_hash made']
  obtain ⟨ids, keyed⟩ := reached.keyed
  obtain ⟨ids', id, kept, found⟩ := keyed.find_added added
  refine ⟨Iff.rfl, ?_, fun same => ?_⟩
  · rintro ⟨other, refers, refers'⟩
    have hash := (Map.mem_bucket_find (kept.find_of_refers refers)).2.1
    have hash' := (Map.mem_bucket_find (kept.find_of_refers refers')).2.1
    exact Option.some_inj.mp (hash.symm.trans hash')
  · refine ⟨id, kept.refers_of_find sets found, kept.refers_of_find sets ?_⟩
    rw [← same, Map.describes_congr equal]
    exact found

section Samples

def keyByte (number : Int32) (value : UInt8) : PacketFieldMaskedBytes :=
  { fieldId := { field := some ⟨number, 0⟩ }, bytes := [value], masks := [] }

def eachByte : FieldID → Nat := fun _ => 1

def noSets : Sets := fun _ => none

def emptyMap : Map Nat :=
  Map.newMap { fields := [], size := 0 } { fields := [], size := 0 }

theorem same_values_refer :
    ∃ d d' m', newDesc [keyByte 1 7, keyByte 2 7] [] = .ok d ∧
      newDesc [keyByte 2 7, keyByte 1 7] [] = .ok d' ∧
      emptyMap.add noSets eachByte d [5] = .ok m' ∧
      ∃ id, m'.Refers noSets eachByte d id ∧ m'.Refers noSets eachByte d' id := by
  refine ⟨_, _, _, rfl, rfl, rfl, ?_⟩
  exact (reordered_refers_iff noSets eachByte [keyByte 1 7, keyByte 2 7] [keyByte 2 7, keyByte 1 7]
    [] [] _ _ rfl rfl (by decide +kernel) emptyMap _ (.new _ _) [5] rfl).2.mpr (by decide +kernel)

-- With two values, the second request adds a second entry for the flow, and cannot remove the first
-- one.
theorem reordered_entry_duplicated :
    ∃ d d' m' m'', newDesc [keyByte 1 7, keyByte 2 8] [] = .ok d ∧
      newDesc [keyByte 2 8, keyByte 1 7] [] = .ok d' ∧ d.equal d' = true ∧ d.hash ≠ d'.hash ∧
      emptyMap.add noSets eachByte d [5] = .ok m' ∧ m'.add noSets eachByte d' [6] = .ok m'' ∧
      m''.ids = [1, 0] ∧ (∃ message, m'.remove d' = .error message) := by
  refine ⟨_, _, _, _, rfl, rfl, ?_, ?_, rfl, rfl, ?_, _, rfl⟩
  · decide +kernel
  · decide +kernel
  · decide +kernel

end Samples

end Lemming.Flow
