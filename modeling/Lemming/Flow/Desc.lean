import Mathlib.Algebra.Order.Ring.Nat
import Mathlib.Algebra.Order.BigOperators.Group.List
import Lemming.Packet.Field
import Lemming.Shared.Iteration
import Lemming.Shared.Outcome

set_option autoImplicit false

namespace Lemming.Flow

open Packet Shared

abbrev SetId := String

abbrev Sets := SetId → Option (List Bytes)

structure PacketFieldMaskedBytes where
  fieldId : PacketFieldId
  bytes : Bytes
  masks : Bytes

structure PacketFieldSet where
  fieldId : PacketFieldId
  setId : SetId

structure FieldKey where
  value : Bytes
  mask : Bytes
  sameSize : mask.length = value.length
deriving DecidableEq

theorem FieldKey.ext_iff {k k2 : FieldKey} : k = k2 ↔ k.value = k2.value ∧ k.mask = k2.mask := by
  cases k
  cases k2
  simp

def newFieldKey (b m : Bytes) : Outcome FieldKey :=
  if m.length ≠ 0 then
    if same : m.length = b.length then .ok { value := b, mask := m, sameSize := same }
    else .error ("flow: NewFlowDesc failed, len(bytes)=" ++ toString b.length ++
      " != len(masks)=" ++ toString m.length)
  else .ok { value := b, mask := List.replicate b.length 0xFF, sameSize := by simp }

-- FNV-1: the multiplication comes before the exclusive or.
def fnvWrite (hash : UInt32) (data : Bytes) : UInt32 :=
  data.foldl (fun hash c => hash * 16777619 ^^^ c.toUInt32) hash

def fnvNew : UInt32 := 2166136261

structure Desc where
  keys : GoMap FieldID FieldKey
  qualifiers : GoMap FieldID SetId
  hash : UInt32

def newDescKeys : List PacketFieldMaskedBytes → GoMap FieldID FieldKey × UInt32 →
    Outcome (GoMap FieldID FieldKey × UInt32)
  | [], built => .ok built
  | d :: rest, (keys, hash) => do
    let field ← newFieldKey d.bytes d.masks
    newDescKeys rest
      (keys.insert (newFieldID d.fieldId) field, fnvWrite (fnvWrite hash field.value) field.mask)

def newDesc (keys : List PacketFieldMaskedBytes) (qualifiers : List PacketFieldSet) :
    Outcome Desc := do
  let (keys, hash) ← newDescKeys keys (∅, fnvNew)
  let qualifiers := qualifiers.foldl
    (fun held (d : PacketFieldSet) => held.insert (newFieldID d.fieldId) d.setId) ∅
  return { keys, qualifiers, hash }

namespace Desc

def equal (d d2 : Desc) : Bool :=
  d.keys.entries.length == d2.keys.entries.length &&
  d.qualifiers.entries.length == d2.qualifiers.entries.length &&
  GoMap.agrees (fun v1 v2 => v1.value == v2.value && v1.mask == v2.mask) d.keys d2.keys &&
  GoMap.agrees (fun q1 q2 => q1 == q2) d.qualifiers d2.qualifiers

theorem equal_iff (d d2 : Desc) :
    d.equal d2 = true ↔
      d.keys.toFinmap = d2.keys.toFinmap ∧ d.qualifiers.toFinmap = d2.qualifiers.toFinmap := by
  have sameKey (v1 v2 : FieldKey) :
      (v1.value == v2.value && v1.mask == v2.mask) = true ↔ v1 = v2 := by
    simp [FieldKey.ext_iff]
  have sameSet (q1 q2 : SetId) : (q1 == q2) = true ↔ q1 = q2 := beq_iff_eq
  rw [← GoMap.same_iff, ← GoMap.same_iff, equal]
  simp only [Bool.and_eq_true, beq_iff_eq, GoMap.agrees_iff sameKey, GoMap.agrees_iff sameSet]
  tauto

end Desc

def listing : List PacketFieldMaskedBytes → Outcome (List (FieldID × FieldKey))
  | [] => .ok []
  | d :: rest => do
    let field ← newFieldKey d.bytes d.masks
    return (newFieldID d.fieldId, field) :: (← listing rest)

def describe (listed : List (FieldID × FieldKey)) (built : GoMap FieldID FieldKey × UInt32) :
    GoMap FieldID FieldKey × UInt32 :=
  listed.foldl (fun (keys, hash) (id, field) =>
    (keys.insert id field, fnvWrite (fnvWrite hash field.value) field.mask)) built

theorem newDescKeys_eq (keys : List PacketFieldMaskedBytes)
    (built : GoMap FieldID FieldKey × UInt32) :
    newDescKeys keys built = (do return describe (← listing keys) built) := by
  induction keys generalizing built with
  | nil => rfl
  | cons d rest ih =>
    obtain ⟨held, hash⟩ := built
    rw [newDescKeys, listing]
    cases newFieldKey d.bytes d.masks with
    | ok field =>
      simp only [Outcome.ok_bind, ih]
      cases listing rest <;> rfl
    | error message => rfl
    | panic => rfl
    | diverge => rfl

theorem newFieldKey_value {b m : Bytes} {field : FieldKey} (made : newFieldKey b m = .ok field) :
    field.value = b := by
  unfold newFieldKey at made
  split at made
  · split at made
    · cases made
      rfl
    · cases made
  · cases made
    rfl

theorem listing_fits {maxSize : FieldID → Nat} {keys : List PacketFieldMaskedBytes}
    {listed : List (FieldID × FieldKey)} (run : listing keys = .ok listed)
    (room : ∀ d ∈ keys, d.bytes.length ≤ maxSize (newFieldID d.fieldId)) :
    ∀ item ∈ listed, item.2.value.length ≤ maxSize item.1 := by
  induction keys generalizing listed with
  | nil =>
    cases run
    simp
  | cons d rest ih =>
    rw [listing] at run
    obtain ⟨field, made, run⟩ := Outcome.bind_eq_ok.mp run
    obtain ⟨more, listedRest, run⟩ := Outcome.bind_eq_ok.mp run
    cases run
    rw [List.forall_mem_cons] at room ⊢
    exact ⟨(newFieldKey_value made).symm ▸ room.1, ih listedRest room.2⟩

theorem describe_lookup {listed : List (FieldID × FieldKey)} {keys : GoMap FieldID FieldKey}
    {hash : UInt32} {id : FieldID} {field : FieldKey}
    (found : (describe listed (keys, hash)).1.lookup id = some field) :
    keys.lookup id = some field ∨ (id, field) ∈ listed := by
  induction listed generalizing keys hash with
  | nil => exact Or.inl found
  | cons item rest ih =>
    obtain ⟨first, value⟩ := item
    rcases ih found with old | later
    · by_cases same : id = first
      · subst same
        rw [AList.lookup_insert, Option.some_inj] at old
        exact Or.inr (old ▸ List.mem_cons_self)
      · rw [AList.lookup_insert_ne same] at old
        exact Or.inl old
    · exact Or.inr (List.mem_cons_of_mem _ later)

theorem newDesc_ok {keys : List PacketFieldMaskedBytes} {qualifiers : List PacketFieldSet}
    {fd : Desc} (built : newDesc keys qualifiers = .ok fd) :
    ∃ listed, listing keys = .ok listed ∧ fd.keys = (describe listed (∅, fnvNew)).1 ∧
      fd.hash = (describe listed (∅, fnvNew)).2 := by
  rw [newDesc, newDescKeys_eq] at built
  cases listed : listing keys with
  | ok fields =>
    rw [listed] at built
    cases built
    exact ⟨fields, rfl, rfl, rfl⟩
  | error message | panic | diverge => simp [listed] at built

structure FieldList where
  fields : List FieldID
  size : Nat

abbrev PacketKey := Bytes

abbrev PacketFields := FieldID → Option Bytes

structure EntryKey where
  value : Bytes
  mask : Bytes
  sameSize : mask.length = value.length

def maskedEqual : Bytes → Bytes → Bytes → Bool
  | b :: bs, m :: ms, v :: vs => if b &&& m ≠ v &&& m then false else maskedEqual bs ms vs
  | _, _, _ => true

theorem maskedEqual_iff {b m v : Bytes} (packet : b.length = m.length)
    (entry : v.length = m.length) :
    maskedEqual b m v = true ↔
      List.zipWith (· &&& ·) b m = List.zipWith (· &&& ·) v m := by
  induction m generalizing b v with
  | nil =>
    have none := List.length_eq_zero_iff.mp packet
    subst none
    simp [maskedEqual]
  | cons y ms ih =>
    obtain ⟨x, bs, rfl⟩ := List.exists_cons_of_length_eq_add_one packet
    obtain ⟨z, vs, rfl⟩ := List.exists_cons_of_length_eq_add_one entry
    by_cases same : x &&& y = z &&& y
    · simpa [maskedEqual, same] using ih (by simpa using packet) (by simpa using entry)
    · simp [maskedEqual, same]

theorem maskedEqual_append {b m v : Bytes} (b' m' v' : Bytes) (packet : b.length = m.length)
    (entry : v.length = m.length) :
    maskedEqual (b ++ b') (m ++ m') (v ++ v') = (maskedEqual b m v && maskedEqual b' m' v') := by
  induction m generalizing b v with
  | nil =>
    have first := List.length_eq_zero_iff.mp packet
    have second := List.length_eq_zero_iff.mp entry
    subst first second
    rfl
  | cons y ms ih =>
    obtain ⟨x, bs, rfl⟩ := List.exists_cons_of_length_eq_add_one packet
    obtain ⟨z, vs, rfl⟩ := List.exists_cons_of_length_eq_add_one entry
    by_cases same : x &&& y = z &&& y
    · simpa [maskedEqual, same] using ih (by simpa using packet) (by simpa using entry)
    · simp [maskedEqual, same]

theorem maskedEqual_unmasked (b v : Bytes) (count : Nat) :
    maskedEqual b (List.replicate count 0) v = true := by
  induction count generalizing b v with
  | zero => cases b <;> simp [maskedEqual]
  | succ count ih =>
    cases b with
    | nil => simp [maskedEqual]
    | cons x bs =>
      cases v with
      | nil => simp [maskedEqual, List.replicate_succ]
      | cons z vs => simp [maskedEqual, List.replicate_succ, ih]

def EntryKey.match (k : EntryKey) (p : PacketKey) : Bool :=
  if p.length ≠ k.value.length then false else maskedEqual p k.mask k.value

structure EntryQualifier where
  values : GoMap FieldID SetId

abbrev PacketQualifier := GoMap FieldID Bytes

def EntryQualifier.match (sets : Sets) (q : EntryQualifier) (p : PacketQualifier) : Bool :=
  q.values.entries.all fun ⟨f, s⟩ =>
    match p.lookup f with
    | none => false
    | some v => ((sets s).getD []).contains v

section Keys

variable (maxSize : FieldID → Nat)

def newFieldList (order : Shuffle FieldID) (fm : GoMap FieldID Bool) : FieldList :=
  let fields := order.arrange fm.keys
  { fields, size := (fields.map maxSize).sum }

def EntryKey.addField (fd : Desc) (k : EntryKey) (id : FieldID) : EntryKey :=
  let value := ((fd.keys.lookup id).map FieldKey.value).getD []
  let mask := ((fd.keys.lookup id).map FieldKey.mask).getD []
  { value := k.value ++ pad maxSize id value
    mask := k.mask ++ pad maxSize id mask
    sameSize := by
      have same : mask.length = value.length := by
        cases found : fd.keys.lookup id with
        | none => simp [mask, value, found]
        | some field => simp [mask, value, found, field.sameSize]
      simp [pad_length, same, k.sameSize] }

def packetBytes (packet : PacketFields) (id : FieldID) : Bytes :=
  pad maxSize id ((packet id).getD [])

def FieldKey.Admits (field : FieldKey) (packet : PacketFields) (id : FieldID) : Prop :=
  List.zipWith (· &&& ·) (packetBytes maxSize packet id) (pad maxSize id field.mask) =
    List.zipWith (· &&& ·) (pad maxSize id field.value) (pad maxSize id field.mask)

namespace FieldList

def makeEntryKey (l : FieldList) (fd : Desc) : EntryKey :=
  l.fields.foldl (EntryKey.addField maxSize fd) { value := [], mask := [], sameSize := rfl }

def makePacketKey (l : FieldList) (packet : PacketFields) : PacketKey :=
  l.fields.foldl (fun k id => k ++ pad maxSize id ((packet id).getD [])) []

def makePacketQualifier (l : FieldList) (packet : PacketFields) : PacketQualifier :=
  l.fields.foldl (fun q id =>
    match packet id with
    | none => q
    | some field => q.insert id (pad maxSize id field)) ∅

end FieldList

def Desc.Fits (fd : Desc) : Prop :=
  ∀ id field, fd.keys.lookup id = some field → field.value.length ≤ maxSize id

def PacketFits (packet : PacketFields) : Prop :=
  ∀ id bytes, packet id = some bytes → bytes.length ≤ maxSize id

variable {maxSize}

theorem packetBytes_length {packet : PacketFields} (fits : PacketFits maxSize packet)
    (id : FieldID) : (packetBytes maxSize packet id).length = maxSize id := by
  rw [packetBytes, pad_length]
  cases found : packet id with
  | none => simp
  | some bytes => simpa using fits id bytes found

theorem sum_eq_iff {α : Type} {wide narrow : α → Nat} {xs : List α} (le : ∀ x, narrow x ≤ wide x) :
    (xs.map wide).sum = (xs.map narrow).sum ↔ ∀ x ∈ xs, wide x = narrow x := by
  induction xs with
  | nil => simp
  | cons x xs ih =>
    have below := List.sum_le_sum (l := xs) fun x _ => le x
    have first := le x
    rw [List.forall_mem_cons, ← ih, List.map_cons, List.map_cons, List.sum_cons, List.sum_cons]
    omega

theorem makePacketKey_eq (l : FieldList) (packet : PacketFields) :
    l.makePacketKey maxSize packet = (l.fields.map (packetBytes maxSize packet)).flatten :=
  List.foldl_append_eq_append

theorem makePacketKey_length_iff (l : FieldList) (packet : PacketFields) :
    (l.makePacketKey maxSize packet).length = (l.fields.map maxSize).sum ↔
      ∀ id ∈ l.fields, (packetBytes maxSize packet id).length = maxSize id := by
  rw [makePacketKey_eq, List.length_flatten, List.map_map]
  refine sum_eq_iff fun id => ?_
  rw [Function.comp_apply, packetBytes, pad_length]
  exact Nat.le_max_left _ _

def Desc.valueOf (fd : Desc) (id : FieldID) : Bytes :=
  ((fd.keys.lookup id).map FieldKey.value).getD []

theorem makeEntryKey_value (l : FieldList) (fd : Desc) :
    (l.makeEntryKey maxSize fd).value =
      (l.fields.map fun id => pad maxSize id (fd.valueOf id)).flatten := by
  have loop (fields : List FieldID) (k : EntryKey) :
      (fields.foldl (EntryKey.addField maxSize fd) k).value =
        k.value ++ (fields.map fun id => pad maxSize id (fd.valueOf id)).flatten := by
    induction fields generalizing k with
    | nil => simp
    | cons id rest ih =>
      rw [List.foldl_cons, ih, EntryKey.addField]
      simp [Desc.valueOf]
  exact loop l.fields _

variable {l : FieldList} {fd : Desc}

theorem makeEntryKey_length_iff (covers : ∀ id ∈ fd.keys, id ∈ l.fields) :
    (l.makeEntryKey maxSize fd).value.length = (l.fields.map maxSize).sum ↔ fd.Fits maxSize := by
  rw [makeEntryKey_value, List.length_flatten, List.map_map]
  refine (sum_eq_iff fun id => ?_).trans ?_
  · rw [Function.comp_apply, pad_length]
    exact Nat.le_max_left _ _
  simp only [Function.comp_apply, pad_length]
  constructor
  · intro all id field found
    have member : id ∈ fd.keys := AList.lookup_isSome.mp (by rw [found]; rfl)
    have width := all id (covers id member)
    simp only [Desc.valueOf, found, Option.map_some, Option.getD_some] at width
    omega
  · intro fits id _
    cases found : fd.keys.lookup id with
    | none => simp [Desc.valueOf, found]
    | some field =>
      have room := fits id field found
      simp only [Desc.valueOf, found, Option.map_some, Option.getD_some]
      omega

theorem match_length {k : EntryKey} {p : PacketKey} (matched : k.match p = true) :
    p.length = k.value.length := by
  by_contra other
  rw [EntryKey.match, if_pos other] at matched
  cases matched

theorem match_fields (fits : fd.Fits maxSize) {packet : PacketFields} (fields : List FieldID)
    (sized : ∀ id ∈ fields, (packetBytes maxSize packet id).length = maxSize id) (k : EntryKey)
    (p : PacketKey) (same : p.length = k.value.length) :
    (fields.foldl (EntryKey.addField maxSize fd) k).match
        (fields.foldl (fun k id => k ++ packetBytes maxSize packet id) p) = true ↔
      k.match p = true ∧
        ∀ id ∈ fields, ∀ field, fd.keys.lookup id = some field → field.Admits maxSize packet id := by
  induction fields generalizing k p with
  | nil => simp
  | cons id rest ih =>
    obtain ⟨width, sized⟩ := List.forall_mem_cons.mp sized
    have valueSize : (pad maxSize id (((fd.keys.lookup id).map FieldKey.value).getD [])).length =
        maxSize id := by
      rw [pad_length]
      cases found : fd.keys.lookup id with
      | none => simp
      | some field => simpa using fits id field found
    have sizes : (p ++ packetBytes maxSize packet id).length =
        (k.addField maxSize fd id).value.length := by
      simp [EntryKey.addField, same, width, valueSize]
    rw [List.foldl_cons, List.foldl_cons, ih sized _ _ sizes, List.forall_mem_cons, ← and_assoc]
    refine and_congr_left fun _ => ?_
    simp only [EntryKey.match, sizes, same, ne_eq, not_true, if_false, EntryKey.addField]
    rw [maskedEqual_append _ _ _ (same.trans k.sameSize.symm) k.sameSize.symm, Bool.and_eq_true]
    refine and_congr_right fun _ => ?_
    cases found : fd.keys.lookup id with
    | none =>
      have zero : pad maxSize id [] = List.replicate (maxSize id) 0 := pad_nil maxSize id
      simp [zero, maskedEqual_unmasked]
    | some field =>
      simp only [found, Option.map_some, Option.getD_some] at valueSize ⊢
      have maskSize : (pad maxSize id field.mask).length = maxSize id := by
        rw [pad_length, field.sameSize, ← pad_length, valueSize]
      rw [maskedEqual_iff (width.trans maskSize.symm) (valueSize.trans maskSize.symm)]
      simp [FieldKey.Admits]

theorem match_iff_of_sized {packet : PacketFields}
    (sized : ∀ id ∈ l.fields, (packetBytes maxSize packet id).length = maxSize id)
    (covers : ∀ id ∈ fd.keys, id ∈ l.fields) :
    (l.makeEntryKey maxSize fd).match (l.makePacketKey maxSize packet) = true ↔
      fd.Fits maxSize ∧
        ∀ id field, fd.keys.lookup id = some field → field.Admits maxSize packet id := by
  by_cases fits : fd.Fits maxSize
  · refine (match_fields fits l.fields sized _ [] rfl).trans (and_congr (iff_of_true rfl fits) ?_)
    refine forall_congr' fun id => ⟨fun all field found => ?_, fun all _ => all⟩
    exact all (covers id (AList.lookup_isSome.mp (by simp [found]))) field found
  · refine iff_of_false (fun matched => fits ?_) fun both => fits both.1
    rw [← makeEntryKey_length_iff covers, ← match_length matched]
    exact (makePacketKey_length_iff l packet).mpr sized

theorem makeEntryKey_match (fits : fd.Fits maxSize) {packet : PacketFields}
    (packetFits : PacketFits maxSize packet) (covers : ∀ id ∈ fd.keys, id ∈ l.fields) :
    (l.makeEntryKey maxSize fd).match (l.makePacketKey maxSize packet) = true ↔
      ∀ id field, fd.keys.lookup id = some field → field.Admits maxSize packet id :=
  (match_iff_of_sized (fun id _ => packetBytes_length packetFits id) covers).trans (and_iff_right fits)

theorem match_overlong (fits : fd.Fits maxSize) {packet : PacketFields}
    (overlong : ¬ ∀ id ∈ l.fields, (packetBytes maxSize packet id).length = maxSize id)
    (covers : ∀ id ∈ fd.keys, id ∈ l.fields) :
    (l.makeEntryKey maxSize fd).match (l.makePacketKey maxSize packet) = false := by
  refine Bool.eq_false_iff.mpr fun matched => overlong ?_
  rw [← makePacketKey_length_iff, match_length matched]
  exact (makeEntryKey_length_iff covers).mpr fits

end Keys

def FieldList.makeEntryQualifierLoop (sets : Sets) (fd : Desc) :
    List FieldID → GoMap FieldID SetId → Outcome EntryQualifier
  | [], values => .ok { values }
  | id :: rest, values =>
    match fd.qualifiers.lookup id with
    | none => makeEntryQualifierLoop sets fd rest values
    | some sid =>
      match sets sid with
      | none => .error "flow: NewEntryQualifier failed, cannot find set"
      | some _ => makeEntryQualifierLoop sets fd rest (values.insert id sid)

def FieldList.makeEntryQualifier (sets : Sets) (l : FieldList) (fd : Desc) :
    Outcome EntryQualifier :=
  makeEntryQualifierLoop sets fd l.fields ∅

end Lemming.Flow
