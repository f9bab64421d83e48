import Lemming.Packet.Field
import Lemming.Shared.HashChain

set_option autoImplicit false

namespace Lemming.Exact

open Packet Shared

section

abbrev Key := Bytes

def bucket (key : Key) : UInt32 :=
  key.foldl (fun hash octet => (hash * 16777619) ^^^ octet.toUInt32) 2166136261

structure Entry (A : Type) where
  key : Key
  actions : A
  staleTime : Int
  transient : Bool

structure StaleList where
  head : Option Nat
  tail : Option Nat
  timeout : Int

-- A table with the entries it has allocated; a pointer to an entry is the number of its allocation.
structure Table (A : Type) where
  desc : List FieldID
  entries : Nat → Option (Entry A)
  allocated : Nat
  hash : GoMap UInt32 Nat
  hashLinks : Links Nat
  actions : A
  stale : Option StaleList
  staleLinks : Links Nat

structure ExactEntryDesc where
  fields : List (FieldID × Bytes)
  transient : Bool

structure Env (A : Type) where
  maxSize : FieldID → Nat
  validate : FieldID → Nat → Option String
  isEqual : A → A → Bool
  fieldText : FieldID → String
  fieldsText : List (FieldID × Bytes) → String
  keyText : Key → String
  entryText : Entry A → String

variable {A : Type} (env : Env A)

section Keys

def fieldSet : List (FieldID × Bytes) → GoMap FieldID Bytes → Except String (GoMap FieldID Bytes)
  | [], set => .ok set
  | (id, octets) :: rest, set =>
    match env.validate id octets.length with
    | some err => .error ("exact: newExactKey failed, err " ++ err)
    | none => fieldSet rest (set.insert id (pad env.maxSize id octets))

def keyOf (ed : List (FieldID × Bytes)) (set : GoMap FieldID Bytes) : List FieldID → Except String Key
  | [] => .ok []
  | id :: rest =>
    match set.lookup id with
    | none => .error ("exact: newExactKey failed, missing field " ++ env.fieldText id ++ " in " ++
        env.fieldsText ed)
    | some octets => do return octets ++ (← keyOf ed set rest)

def newExactKey (kd : List FieldID) (ed : List (FieldID × Bytes)) : Except String Key := do
  let set ← fieldSet env ed ∅
  -- Ensure that there are no duplicate fields.
  if set.entries.length ≠ ed.length then
    throw ("exact: newExactKey failed, field-ids " ++ env.fieldsText ed ++
      " contain duplicate field-id")
  keyOf env ed set kd

def makePacketKey (kd : List FieldID) (packet : FieldID → Option Bytes) : Key :=
  (kd.map fun id => pad env.maxSize id ((packet id).getD [])).flatten

end Keys

namespace Table

def new (desc : List FieldID) (actions : A) (timeout : Nat) : Table A where
  desc
  entries := fun _ => none
  allocated := 0
  hash := ∅
  hashLinks := Links.none
  actions
  stale := if timeout = 0 then none else some ⟨none, none, timeout * 1000000000⟩
  staleLinks := Links.none

variable (t : Table A)

def hasKey (key : Key) (id : Nat) : Bool :=
  match t.entries id with
  | none => false
  | some entry => entry.key == key

-- Nothing but the bucket of a key depends on the hash function, so any other may stand in for FNV.
def findBy (bucketFor : Key → UInt32) (key : Key) : Outcome (Option Nat) :=
  t.hashLinks.search (t.hasKey key) t.allocated (t.hash.lookup (bucketFor key))

def find (key : Key) : Outcome (Option Nat) := t.findBy bucket key

def modify (id : Nat) (change : Entry A → Entry A) : Table A :=
  { t with entries := Function.update t.entries id ((t.entries id).map change) }

def isTransient (id : Nat) : Bool :=
  match t.entries id with
  | none => false
  | some entry => entry.transient

def staleAdd (l : StaleList) (id : Nat) (now : Int) : Outcome (Table A) :=
  let t := t.modify id fun entry => { entry with staleTime := now + l.timeout }
  let links := (t.staleLinks.setPrev id l.tail).setNext id none
  match l.head, l.tail with
  | none, _ => .ok { t with
      staleLinks := links
      stale := some { l with head := some id, tail := some id } }
  | some _, some last => .ok { t with
      staleLinks := links.setNext last (some id)
      stale := some { l with tail := some id } }
  | some _, none => .panic

def staleRemove (l : StaleList) (id : Nat) : Table A :=
  let links := t.staleLinks.unlink id
  { t with
    staleLinks := links
    stale := some { l with
      tail := if l.tail = some id then links.prev id else l.tail
      head := if l.head = some id then links.next id else l.head } }

def staleUse (l : StaleList) (id : Nat) (now : Int) : Outcome (Table A) :=
  let t := t.staleRemove l id
  match t.stale with
  | none => .ok t
  | some l => t.staleAdd l id now

def insertBy (bucketFor : Key → UInt32) (key : Key) (actions : A) : Table A :=
  let id := t.allocated
  { t with
    entries := Function.update t.entries id (some ⟨key, actions, 0, false⟩)
    allocated := id + 1
    hashLinks := t.hashLinks.pushFront (t.hash.lookup (bucketFor key)) id
    hash := t.hash.insert (bucketFor key) id }

def insert (key : Key) (actions : A) : Table A := t.insertBy bucket key actions

def removeBy (bucketFor : Key → UInt32) (id : Nat) (key : Key) : Table A :=
  let links := t.hashLinks.unlink id
  { t with
    hashLinks := links
    hash := GoMap.bypass t.hash (bucketFor key) (links.prev id) (links.next id) }

def remove (id : Nat) (key : Key) : Table A := t.removeBy bucket id key

def relist (id : Nat) (transient : Bool) (now : Int) : Outcome (Table A) :=
  match t.stale with
  | none => .ok t
  | some l =>
    let t := if t.isTransient id then t.staleRemove l id else t
    if transient then
      let t := t.modify id fun entry => { entry with transient := true }
      match t.stale with
      | none => .ok t
      | some l => t.staleAdd l id now
    else .ok t

def addEntry (ed : Option ExactEntryDesc) (actions : Except String A) (now : Int) :
    Outcome (Table A × Option String) :=
  match ed with
  | none => .ok (t, some "exact: AddEntry failed, missing desc")
  | some ex =>
    match newExactKey env t.desc ex.fields with
    | .error err => .ok (t, some ("exact: AddEntry failed, err " ++ err))
    | .ok key =>
      match actions with
      | .error err => .ok (t, some ("exact: AddEntry failed, err " ++ err))
      | .ok actions => do
        match ← t.find key with
        | none =>
          let t ← (t.insert key actions).relist t.allocated ex.transient now
          return (t, none)
        | some id =>
          match t.entries id with
          | none => .panic
          | some entry =>
            if ex.transient && !entry.transient then
              -- If the actions are identical, it is safe to not return an error.
              if env.isEqual entry.actions actions then return (t, none)
              else return (t, some ("exact: AddEntry failed, cannot override static entry " ++
                env.entryText entry))
            else
              let t ← (t.modify id fun entry => { entry with actions }).relist id ex.transient now
              return (t, none)

def removeEntry (ed : Option ExactEntryDesc) : Outcome (Table A × Option String) :=
  match ed with
  | none => .ok (t, some "exact: RemoveEntry failed, missing desc")
  | some ex =>
    match newExactKey env t.desc ex.fields with
    | .error err => .ok (t, some ("exact: RemoveEntry failed, err " ++ err))
    | .ok key => do
      match ← t.find key with
      | none => return (t, some ("exact: RemoveEntry failed, cannot find key " ++ env.keyText key))
      | some id =>
        let t :=
          match t.stale with
          | none => t
          | some l => if t.isTransient id then t.staleRemove l id else t
        return (t.remove id key, none)

def clear : Outcome (Table A) := do
  let _ ← t.hash.entries.mapM fun entry => t.hashLinks.walk t.allocated (some entry.2)
  return { t with hash := ∅ }

def process (packet : FieldID → Option Bytes) (now : Int) :
    Outcome (Table A × A) := do
  match ← t.find (makePacketKey env t.desc packet) with
  | none => return (t, t.actions)
  | some id =>
    match t.entries id with
    | none => .panic
    | some entry =>
      match t.stale with
      | none => return (t, entry.actions)
      | some l =>
        if entry.transient then return (← t.staleUse l id now, entry.actions)
        else return (t, entry.actions)

def ageLoop (now : Int) : Nat → Table A → Outcome (Table A)
  | 0, _ => .diverge
  | fuel + 1, t =>
    match t.stale with
    | none => .ok t
    | some l =>
      match l.head with
      | none => .ok t
      | some id =>
        match t.entries id with
        | none => .panic
        | some entry =>
          if entry.staleTime < now then ageLoop now fuel ((t.staleRemove l id).remove id entry.key)
          else .ok t

def age (now later : Int) : Outcome (Table A × Int) := do
  let t ← ageLoop now (t.allocated + 1) t
  match t.stale.bind StaleList.head with
  | none => return (t, 60000000000)
  | some id =>
    match t.entries id with
    | none => .panic
    | some entry => return (t, entry.staleTime - later)

end Table

structure LearnRequest where
  mac : Bytes
  portNID : Bytes

structure Bridge (A : Type) where
  table : Table A
  learn : List LearnRequest

namespace Bridge

def macSrc : FieldID := newFieldIDFromNum 2 0

def macDst : FieldID := newFieldIDFromNum 3 0

def portInput : FieldID := newFieldIDFromNum 14 0

def learnPacket (b : Bridge A) (packet : FieldID → Except String Bytes) :
    Outcome (Bridge A × Option String) :=
  match packet macSrc with
  | .error err => .ok (b, some ("bridge: Unable to find source mac, " ++ err))
  | .ok mac => do
    match ← b.table.find mac with
    | some _ => return (b, none)
    | none =>
      match packet portInput with
      | .error err => return (b, some ("bridge: Unable to find input port, " ++ err))
      | .ok portNID => return ({ b with learn := b.learn ++ [⟨mac, portNID⟩] }, none)

-- `processLearn` for the oldest request. `port` says what the transmit action to the port of the
-- request is, if there is such a port.
def processLearn (b : Bridge A) (port : Bytes → Option (Except String A)) (now : Int) :
    Outcome (Bridge A) :=
  match b.learn with
  | [] => .ok b
  | request :: learn =>
    match port request.portNID with
    | none => .ok { b with learn }
    | some actions => do
      -- It is not an error if an entry cannot be added.
      let (table, _) ← b.table.addEntry env (some ⟨[(macDst, request.mac)], true⟩) actions now
      return { table, learn }

end Bridge

end

variable {A : Type}

namespace Table

def contentAt (t : Table A) (id : Nat) : Option (Key × A × Bool) :=
  (t.entries id).map fun entry => (entry.key, entry.actions, entry.transient)

def keyAt (t : Table A) (id : Nat) : Option Key := (t.contentAt id).map Prod.fst

section

variable {t : Table A} {id : Nat} {entry : Entry A} (isEntry : t.entries id = some entry)
include isEntry

theorem contentAt_of_entries :
    t.contentAt id = some (entry.key, entry.actions, entry.transient) := by
  rw [contentAt, isEntry]
  rfl

theorem keyAt_of_entries : t.keyAt id = some entry.key := by
  rw [keyAt, contentAt_of_entries isEntry]
  rfl

theorem isTransient_of_entries : t.isTransient id = entry.transient := by
  rw [isTransient, isEntry]

end

section AnyBucket

variable (bucketFor : Key → UInt32)

def hashBy (t : Table A) (id : Nat) : Option UInt32 := (t.keyAt id).map bucketFor

structure ChainsBy (t : Table A) (ids : List Nat) : Prop where
  distinct : ids.Nodup
  bound : ∀ id ∈ ids, id < t.allocated
  present : ∀ id ∈ ids, ∃ content, t.contentAt id = some content
  chained : Chained t.hash t.hashLinks (t.hashBy bucketFor) ids
  keys : ∀ id ∈ ids, ∀ id' ∈ ids, t.keyAt id = t.keyAt id' → id = id'

end AnyBucket

abbrev Chains (t : Table A) (ids : List Nat) : Prop := t.ChainsBy Exact.bucket ids

structure Ages (t : Table A) (ids : List Nat) : Prop where
  distinct : ids.Nodup
  listed : ∀ l, t.stale = some l → Listed t.staleLinks l.head l.tail ids
  unused : t.stale = none → ids = []

def view (t : Table A) (key : Key) : Option (A × Bool) :=
  match t.find key with
  | .ok (some id) => (t.contentAt id).map Prod.snd
  | _ => none

variable {t t' : Table A} {ids : List Nat} {key : Key} {id : Nat} {bucketFor : Key → UInt32}

theorem hasKey_iff : t.hasKey key id = true ↔ t.keyAt id = some key := by
  unfold hasKey keyAt contentAt
  cases t.entries id <;> simp

theorem ChainsBy.nil (empty : t.hash = ∅) : t.ChainsBy bucketFor [] := by
  refine ⟨.nil, nofun, nofun, ?_, nofun⟩
  rw [empty]
  exact Chained.nil _ _

theorem ChainsBy.length_le (chains : t.ChainsBy bucketFor ids) : ids.length ≤ t.allocated := by
  have inside : ids ⊆ List.range t.allocated := fun id member =>
    List.mem_range.mpr (chains.bound id member)
  simpa using (List.subperm_of_subset chains.distinct inside).length_le

theorem ChainsBy.findBy_eq (chains : t.ChainsBy bucketFor ids) (key : Key) :
    t.findBy bucketFor key = .ok (ids.find? (t.hasKey key)) := by
  apply chains.chained.search _ chains.length_le
  intro id _ isKey
  rw [hashBy, hasKey_iff.mp isKey]
  rfl

theorem ChainsBy.findBy_iff (chains : t.ChainsBy bucketFor ids) :
    t.findBy bucketFor key = .ok (some id) ↔ id ∈ ids ∧ t.keyAt id = some key := by
  rw [chains.findBy_eq]
  constructor
  · intro found
    have found' := Outcome.ok.inj found
    exact ⟨List.mem_of_find?_eq_some found', hasKey_iff.mp (List.find?_some found')⟩
  · intro ⟨member, isKey⟩
    congr 1
    cases found : ids.find? (t.hasKey key) with
    | none =>
      have not := List.find?_eq_none.mp found id member
      exact absurd (hasKey_iff.mpr isKey) not
    | some other =>
      congr 1
      apply chains.keys other (List.mem_of_find?_eq_some found) id member
      rw [hasKey_iff.mp (List.find?_some found), isKey]

theorem Chains.find_eq (chains : t.Chains ids) (key : Key) :
    t.find key = .ok (ids.find? (t.hasKey key)) :=
  ChainsBy.findBy_eq chains key

theorem Chains.find_iff (chains : t.Chains ids) :
    t.find key = .ok (some id) ↔ id ∈ ids ∧ t.keyAt id = some key :=
  ChainsBy.findBy_iff chains

theorem Chains.view_iff (chains : t.Chains ids) {result : A × Bool} :
    t.view key = some result ↔ ∃ id ∈ ids, t.contentAt id = some (key, result) := by
  constructor
  · intro isView
    unfold view at isView
    split at isView
    · next id found =>
      obtain ⟨⟨key', result'⟩, isContent, isResult⟩ := Option.map_eq_some_iff.mp isView
      obtain ⟨member, isKey⟩ := chains.find_iff.mp found
      rw [keyAt, isContent] at isKey
      obtain rfl : key' = key := Option.some.inj isKey
      obtain rfl : result' = result := isResult
      exact ⟨id, member, isContent⟩
    · cases isView
  · intro ⟨id, member, isContent⟩
    have found : t.find key = .ok (some id) := by
      apply chains.find_iff.mpr ⟨member, _⟩
      rw [keyAt, isContent]
      rfl
    unfold view
    rw [found]
    dsimp only
    rw [isContent]
    rfl

theorem Chains.transfer (chains : t.Chains ids) (hash : t'.hash = t.hash)
    (links : t'.hashLinks = t.hashLinks) (allocated : t'.allocated = t.allocated)
    (keys : ∀ id, t'.keyAt id = t.keyAt id) : t'.Chains ids := by
  have hashes : t'.hashBy Exact.bucket = t.hashBy Exact.bucket := by
    funext id
    rw [hashBy, keys, hashBy]
  refine ⟨chains.distinct, ?_, ?_, ?_, ?_⟩
  · rw [allocated]
    exact chains.bound
  · intro id member
    obtain ⟨content, isContent⟩ := chains.present id member
    have isKey := keys id
    rw [keyAt, keyAt, isContent] at isKey
    obtain ⟨content', isContent', -⟩ := Option.map_eq_some_iff.mp isKey
    exact ⟨content', isContent'⟩
  · rw [hash, links, hashes]
    exact chains.chained
  · intro id member id' member'
    rw [keys, keys]
    exact chains.keys id member id' member'

theorem Ages.transfer (ages : t.Ages ids) (links : t'.staleLinks = t.staleLinks)
    (stale : t'.stale = t.stale) : t'.Ages ids := by
  refine ⟨ages.distinct, ?_, ?_⟩
  · rw [links, stale]
    exact ages.listed
  · rw [stale]
    exact ages.unused

section Modify

variable {change : Entry A → Entry A}

theorem modify_same (t : Table A) (id : Nat) (change : Entry A → Entry A) :
    (t.modify id change).entries id = (t.entries id).map change := by
  simp [modify]

theorem modify_other (t : Table A) {other : Nat} (different : other ≠ id)
    (change : Entry A → Entry A) : (t.modify id change).entries other = t.entries other := by
  simp [modify, different]

theorem modify_keyAt (t : Table A) (id : Nat) (sameKey : ∀ entry, (change entry).key = entry.key)
    (other : Nat) : (t.modify id change).keyAt other = t.keyAt other := by
  by_cases same : other = id
  · subst same
    simp only [keyAt, contentAt, modify_same]
    cases t.entries other <;> simp [sameKey]
  · simp only [keyAt, contentAt, modify_other t same]

theorem Chains.modify (chains : t.Chains ids) (id : Nat)
    (sameKey : ∀ entry, (change entry).key = entry.key) : (t.modify id change).Chains ids :=
  chains.transfer rfl rfl rfl (modify_keyAt t id sameKey)

end Modify

theorem ChainsBy.entry (chains : t.ChainsBy bucketFor ids) (member : id ∈ ids) :
    ∃ entry, t.entries id = some entry := by
  obtain ⟨content, isContent⟩ := chains.present id member
  obtain ⟨entry, isEntry, -⟩ := Option.map_eq_some_iff.mp isContent
  exact ⟨entry, isEntry⟩

theorem ChainsBy.new (chains : t.ChainsBy bucketFor ids) : t.allocated ∉ ids :=
  fun member => Nat.lt_irrefl _ (chains.bound _ member)

theorem ChainsBy.insert_entries (chains : t.ChainsBy bucketFor ids) (actions : A)
    (member : id ∈ ids) :
    (t.insertBy bucketFor key actions).entries id = t.entries id := by
  have different : id ≠ t.allocated := fun same => chains.new (same ▸ member)
  exact Function.update_of_ne different _ _

theorem ChainsBy.insert (chains : t.ChainsBy bucketFor ids) (actions : A)
    (absent : t.findBy bucketFor key = .ok none) :
    (t.insertBy bucketFor key actions).ChainsBy bucketFor (t.allocated :: ids) := by
  have own : (t.insertBy bucketFor key actions).keyAt t.allocated = some key := by
    simp [keyAt, contentAt, insertBy]
  have others : ∀ id ∈ ids, (t.insertBy bucketFor key actions).contentAt id = t.contentAt id := by
    intro id member
    rw [contentAt, chains.insert_entries actions member, contentAt]
  have otherKeys : ∀ id ∈ ids, (t.insertBy bucketFor key actions).keyAt id = t.keyAt id := by
    intro id member
    rw [keyAt, others id member, keyAt]
  have new : ∀ id ∈ ids, t.keyAt id ≠ some key := by
    intro id member isKey
    rw [chains.findBy_iff.mpr ⟨member, isKey⟩] at absent
    cases absent
  constructor
  · exact List.nodup_cons.mpr ⟨chains.new, chains.distinct⟩
  · intro id member
    rcases List.mem_cons.mp member with rfl | old
    · exact Nat.lt_succ_self _
    · exact Nat.lt_succ_of_lt (chains.bound id old)
  · intro id member
    rcases List.mem_cons.mp member with rfl | old
    · exact ⟨(key, actions, false), by simp [insertBy, contentAt]⟩
    · obtain ⟨content, isContent⟩ := chains.present id old
      exact ⟨content, by rw [others id old, isContent]⟩
  · have kept : Chained t.hash t.hashLinks ((t.insertBy bucketFor key actions).hashBy bucketFor) ids := by
      apply chains.chained.congr
      intro id member
      rw [hashBy, otherKeys id member, hashBy]
    apply kept.push chains.distinct chains.new
    rw [hashBy, own]
    rfl
  · intro id member id' member' same
    rcases List.mem_cons.mp member with rfl | old <;> rcases List.mem_cons.mp member' with rfl | old'
    · rfl
    · rw [own, otherKeys id' old'] at same
      exact absurd same.symm (new id' old')
    · rw [own, otherKeys id old] at same
      exact absurd same (new id old)
    · rw [otherKeys id old, otherKeys id' old'] at same
      exact chains.keys id old id' old' same

theorem ChainsBy.remove {front back : List Nat}
    (chains : t.ChainsBy bucketFor (front ++ id :: back)) (isKey : t.keyAt id = some key) :
    (t.removeBy bucketFor id key).ChainsBy bucketFor (front ++ back) := by
  have subset : (front ++ back).Sublist (front ++ id :: back) :=
    (List.Sublist.refl front).append (List.sublist_cons_self id back)
  have isHash : t.hashBy bucketFor id = some (bucketFor key) := by rw [hashBy, isKey]; rfl
  have own := chains.chained.unlink_self chains.distinct
    (List.mem_append_right front List.mem_cons_self) isHash
  refine ⟨subset.nodup chains.distinct, fun other member => chains.bound other (subset.subset member),
    fun other member => chains.present other (subset.subset member), ?_, ?_⟩
  · have dropped := chains.chained.drop chains.distinct isHash
    rw [← own.1, ← own.2] at dropped
    exact dropped
  · intro other member other' member'
    exact chains.keys other (subset.subset member) other' (subset.subset member')

theorem Chains.insert (chains : t.Chains ids) (actions : A) (absent : t.find key = .ok none) :
    (t.insert key actions).Chains (t.allocated :: ids) :=
  ChainsBy.insert chains actions absent

theorem Chains.remove {front back : List Nat} (chains : t.Chains (front ++ id :: back))
    (isKey : t.keyAt id = some key) : (t.remove id key).Chains (front ++ back) :=
  ChainsBy.remove chains isKey

theorem ChainsBy.clear (chains : t.ChainsBy bucketFor ids) :
    t.clear = .ok { t with hash := ∅ } := by
  have walks : (t.hash.entries.mapM fun entry =>
      t.hashLinks.walk t.allocated (some entry.2)).Yields
        (List.Forall₂ (fun _ _ => True) t.hash.entries) := by
    refine Outcome.yields_mapM.mpr fun entry isIn => ?_
    have lookup : t.hash.lookup entry.1 = some entry.2 := AList.mem_lookup_iff.mpr isIn
    rw [chains.chained.walk lookup chains.length_le]
    exact .pure trivial
  obtain ⟨visited, done, -⟩ := walks
  rw [Table.clear, done]
  rfl

end Table

end Lemming.Exact
