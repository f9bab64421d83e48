import Lemming.Flow.Desc
import Lemming.Prefix.Table

set_option autoImplicit false

namespace Lemming.Prefix

open Packet Shared
open Lemming.Flow (PacketFieldMaskedBytes)

variable {A : Type}

def nibbleOnes (n : UInt8) : Nat :=
  [0, 1, 1, 2, 1, 2, 2, 3, 1, 2, 2, 3, 2, 3, 3, 4].getD n.toNat 0

def Count (bs : Bytes) : Nat :=
  bs.foldl (fun c w => c + (nibbleOnes (w &&& 0x0F) + nibbleOnes ((w >>> 4) &&& 0x0F))) 0

structure Texts where
  field : FieldID → String
  group : FieldID → String
  entry : List PacketFieldMaskedBytes → String

section Keys

variable (texts : Texts)

def fieldSet (ed : List PacketFieldMaskedBytes) : GoMap FieldID PacketFieldMaskedBytes :=
  ed.foldl (fun set desc => set.insert (newFieldID desc.fieldId) desc) ∅

-- A mask that is not given is an empty one, and covers the whole field.
def maskBits (desc : PacketFieldMaskedBytes) : Nat :=
  if desc.masks = [] then Calculate desc.bytes.length else Count desc.masks

def keyLoop (ed : List PacketFieldMaskedBytes) (set : GoMap FieldID PacketFieldMaskedBytes) :
    Nat → List FieldID → Bytes × Nat → Except String (Bytes × Nat)
  | _, [], built => .ok built
  | pos, id :: rest, (bytes, bits) =>
    match set.lookup id with
    | none => .error ("prefix: makePrefixKey failed, missing field " ++ texts.field id ++ " in " ++
        texts.entry ed)
    | some desc =>
      match Parser.validate texts.field texts.group id desc.bytes.length with
      | some err => .error ("prefix: makePrefixKey failed, err " ++ err)
      | none =>
        let valueBits := Calculate desc.bytes.length
        if rest ≠ [] ∧ maskBits desc ≠ valueBits then
          .error ("prefix: makePrefixKey failed, field " ++ texts.field id ++ " in entry " ++
            texts.entry ed ++ " at index " ++ toString pos ++ " has bad mask length. Got " ++
            toString (maskBits desc) ++ ", want " ++ toString valueBits)
        else
          let value := pad Parser.maxSize id desc.bytes
          keyLoop ed set (pos + 1) rest
            (bytes ++ value, bits + (maskBits desc + (Calculate value.length - valueBits)))

def newPrefixKey (kd : List FieldID) (ed : List PacketFieldMaskedBytes) : Except String Key := do
  let set := fieldSet ed
  -- Ensure that there are no duplicate fields.
  if set.entries.length ≠ ed.length then
    throw ("prefix: makePrefixKey failed, field-ids " ++ texts.entry ed ++
      " contain duplicate field-id")
  let (bytes, bits) ← keyLoop texts ed set 0 kd ([], 0)
  return newKey bytes bits

end Keys

structure EntryTable (A : Type) where
  desc : List FieldID
  actions : List A
  tree : Table A

namespace EntryTable

variable (texts : Texts)

def addEntry (t : EntryTable A) (entry : Option (List PacketFieldMaskedBytes))
    (actions : Except String (List A)) : Outcome (EntryTable A) :=
  match entry with
  | none => .error "prefix: AddEntry failed, missing desc"
  | some fields =>
    match newPrefixKey texts t.desc fields with
    | .error err => .error ("prefix: AddEntry failed, err " ++ err)
    | .ok key =>
      match actions with
      | .error err => .error ("prefix: AddEntry failed, err " ++ err)
      | .ok actions => do return { t with tree := ← t.tree.add key actions }

def removeEntry (t : EntryTable A) (entry : Option (List PacketFieldMaskedBytes)) :
    Outcome (EntryTable A) :=
  match entry with
  | none => .error "prefix: RemoveEntry failed, missing desc"
  | some fields =>
    match newPrefixKey texts t.desc fields with
    | .error err => .error ("prefix: RemoveEntry failed, err " ++ err)
    | .ok key => do return { t with tree := ← t.tree.remove key }

end EntryTable

variable {ed : List PacketFieldMaskedBytes} {texts : Texts} {kd : List FieldID}

theorem newPrefixKey_built {key : Key} (made : newPrefixKey texts kd ed = .ok key) :
    ∃ result, keyLoop texts ed (fieldSet ed) 0 kd ([], 0) = .ok result ∧
      key = newKey result.1 result.2 := by
  unfold newPrefixKey at made
  dsimp only at made
  split at made
  · cases made
  · cases built : keyLoop texts ed (fieldSet ed) 0 kd ([], 0) <;> rw [built] at made <;> cases made
    exact ⟨_, rfl, rfl⟩

theorem newPrefixKey_valid {key : Key} (made : newPrefixKey texts kd ed = .ok key) : key.Valid := by
  obtain ⟨result, -, rfl⟩ := newPrefixKey_built made
  exact newKey_valid _ _

theorem keyLoop_cons {set : GoMap FieldID PacketFieldMaskedBytes} {id : FieldID}
    {rest : List FieldID} {pos : Nat} {start result : Bytes × Nat}
    (built : keyLoop texts ed set pos (id :: rest) start = .ok result) :
    ∃ desc, set.lookup id = some desc ∧ Parser.validate texts.field texts.group id desc.bytes.length = none ∧
      (rest ≠ [] → maskBits desc = Calculate desc.bytes.length) ∧
      keyLoop texts ed set (pos + 1) rest
        (start.1 ++ pad Parser.maxSize id desc.bytes, start.2 + (maskBits desc +
          (Calculate (pad Parser.maxSize id desc.bytes).length - Calculate desc.bytes.length))) =
        .ok result := by
  obtain ⟨bytes, bits⟩ := start
  rw [keyLoop] at built
  cases found : set.lookup id with
  | none => simp [found] at built
  | some desc =>
    cases valid : Parser.validate texts.field texts.group id desc.bytes.length with
    | some err => simp [found, valid] at built
    | none =>
      simp only [found, valid] at built
      by_cases wrong : rest ≠ [] ∧ maskBits desc ≠ Calculate desc.bytes.length
      · rw [if_pos wrong] at built
        cases built
      · rw [if_neg wrong] at built
        exact ⟨desc, rfl, valid, not_and_not_right.mp wrong, built⟩

theorem keyLoop_bits_le {set : GoMap FieldID PacketFieldMaskedBytes} {pos : Nat}
    {start result : Bytes × Nat} (built : keyLoop texts ed set pos kd start = .ok result) :
    start.2 ≤ result.2 := by
  induction kd generalizing pos start with
  | nil =>
    cases built
    exact Nat.le_refl _
  | cons id rest ih =>
    obtain ⟨desc, -, -, -, built⟩ := keyLoop_cons built
    exact Nat.le_trans (Nat.le_add_right _ _) (ih built)

theorem newPrefixKey_bitCount {first second : FieldID} {rest : List FieldID} {key : Key}
    (made : newPrefixKey texts (first :: second :: rest) ed = .ok key) :
    8 * Parser.maxSize first ≤ key.bitCount := by
  obtain ⟨result, built, rfl⟩ := newPrefixKey_built made
  obtain ⟨desc, -, valid, whole, built⟩ := keyLoop_cons built
  have bound := keyLoop_bits_le built
  have fits := Parser.le_maxSize_of_validate valid
  rw [whole (by simp), pad_length] at bound
  simp only [Calculate, byteBitCount, Nat.zero_add] at bound
  show _ ≤ result.2
  omega

namespace EntryTable

variable {texts : Texts} {t : EntryTable A}

theorem addEntry_spec (valid : t.tree.Valid) (entry : Option (List PacketFieldMaskedBytes))
    (actions : Except String (List A)) :
    (t.addEntry texts entry actions).Allows fun after => after.tree.Valid ∧ after.desc = t.desc ∧
      ∃ fields key added, entry = some fields ∧ newPrefixKey texts t.desc fields = .ok key ∧
        actions = .ok added ∧
        after.tree.stored = Function.update t.tree.stored key.bits (some added) := by
  cases entry with
  | none => exact Or.inr ⟨_, rfl⟩
  | some fields =>
    rw [addEntry]
    cases made : newPrefixKey texts t.desc fields with
    | error err => exact Or.inr ⟨_, rfl⟩
    | ok key =>
      cases actions with
      | error err => exact Or.inr ⟨_, rfl⟩
      | ok actions =>
        obtain ⟨after, added, afterValid, held⟩ :=
          Table.add_correct valid (newPrefixKey_valid made) actions
        left
        simp only [added, Outcome.ok_bind]
        exact ⟨_, rfl, afterValid, rfl, fields, key, actions, rfl, made, rfl, held⟩

theorem removeEntry_spec (valid : t.tree.Valid) {fields : List PacketFieldMaskedBytes} {key : Key}
    (made : newPrefixKey texts t.desc fields = .ok key) (nonempty : 0 < key.bitCount) :
    ((∃ message, t.removeEntry texts (some fields) = .error message) ∧
        t.tree.hasLevel key.bits = false) ∨
      ∃ after, t.removeEntry texts (some fields) = .ok after ∧ t.tree.hasLevel key.bits = true ∧
        after.tree.Valid ∧ after.desc = t.desc ∧
        after.tree.stored = Function.update t.tree.stored key.bits none := by
  rw [removeEntry]
  simp only [made]
  rcases Table.remove_cases valid (newPrefixKey_valid made) nonempty with
    ⟨⟨message, failed⟩, missing, -⟩ | ⟨after, removed, there, afterValid, held⟩
  · simp only [failed, Outcome.error_bind]
    exact Or.inl ⟨⟨message, rfl⟩, missing⟩
  · simp only [removed, Outcome.ok_bind]
    exact Or.inr ⟨_, rfl, there, afterValid, rfl, held⟩

end EntryTable

end Lemming.Prefix
