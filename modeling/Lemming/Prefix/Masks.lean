import Lemming.Prefix.Entries
import Lemming.Prefix.Removal

set_option autoImplicit false

namespace Lemming.Prefix

section

open Packet Shared
open Lemming.Flow (PacketFieldMaskedBytes PacketFields)

variable {A : Type}

def makePacketKey (kd : List FieldID) (packet : PacketFields) : Bytes :=
  kd.flatMap fun id => pad Parser.maxSize id ((packet id).getD [])

namespace EntryTable

variable (texts : Texts)

def process (t : EntryTable A) (packet : PacketFields) : Outcome (List A) := do
  let (_, actions) ← t.tree.match (makePacketKey t.desc packet)
  return if actions ≠ [] then actions else t.actions

inductive Call (A : Type) where
  | add (entry : Option (List PacketFieldMaskedBytes)) (actions : Except String (List A))
  | remove (entry : Option (List PacketFieldMaskedBytes))

def serve (t : EntryTable A) : Call A → Outcome (EntryTable A)
  | .add entry actions => (t.addEntry texts entry actions).ignoreError t
  | .remove entry => (t.removeEntry texts entry).ignoreError t

def serveAll (t : EntryTable A) (calls : List (Call A)) : Outcome (EntryTable A) :=
  calls.foldlM (serve texts) t

variable (desc : List FieldID)

def Call.apply (held : Table.Stored A) : Call A → Table.Stored A
  | .add (some fields) (.ok actions) =>
    match newPrefixKey texts desc fields with
    | .ok key => Function.update held key.bits (some actions)
    | .error _ => held
  | .remove (some fields) =>
    match newPrefixKey texts desc fields with
    | .ok key => Function.update held key.bits none
    | .error _ => held
  | _ => held

def Call.applyAll (calls : List (Call A)) : Table.Stored A :=
  calls.foldl (Call.apply texts desc) fun _ => none

variable {texts} {t after : EntryTable A}

theorem serve_correct (valid : t.tree.Valid) {call : Call A} (served : t.serve texts call = .ok after) :
    after.tree.Valid ∧ after.desc = t.desc ∧ after.actions = t.actions ∧
      after.tree.stored = call.apply texts t.desc t.tree.stored := by
  have unchanged {outcome : Outcome (EntryTable A)} {message : String}
      (failed : outcome = .error message) (ignored : outcome.ignoreError t = .ok after) :
      after = t := by
    rw [failed] at ignored
    exact (Outcome.ok.inj ignored).symm
  cases call with
  | add entry actions =>
    cases entry with
    | none =>
      cases served
      exact ⟨valid, rfl, rfl, rfl⟩
    | some fields =>
      cases made : newPrefixKey texts t.desc fields with
      | error err =>
        have failed : t.addEntry texts (some fields) actions =
            .error ("prefix: AddEntry failed, err " ++ err) := by
          simp only [addEntry, made]
        cases unchanged failed served
        cases actions <;> exact ⟨valid, rfl, rfl, by simp only [Call.apply, made]⟩
      | ok key =>
        cases actions with
        | error err =>
          have failed : t.addEntry texts (some fields) (.error err) =
              .error ("prefix: AddEntry failed, err " ++ err) := by
            simp only [addEntry, made]
          cases unchanged failed served
          exact ⟨valid, rfl, rfl, rfl⟩
        | ok actions =>
          obtain ⟨tree, added, treeValid, held⟩ :=
            Table.add_correct valid (newPrefixKey_valid made) actions
          have done : t.addEntry texts (some fields) (.ok actions) = .ok { t with tree := tree } := by
            simp only [addEntry, made, added, Outcome.ok_bind, Outcome.pure_eq]
          rw [serve, done] at served
          cases served
          exact ⟨treeValid, rfl, rfl, by simp only [Call.apply, made, held]⟩
  | remove entry =>
    cases entry with
    | none =>
      cases served
      exact ⟨valid, rfl, rfl, rfl⟩
    | some fields =>
      cases made : newPrefixKey texts t.desc fields with
      | error err =>
        have failed : t.removeEntry texts (some fields) =
            .error ("prefix: RemoveEntry failed, err " ++ err) := by
          simp only [removeEntry, made]
        cases unchanged failed served
        exact ⟨valid, rfl, rfl, by simp only [Call.apply, made]⟩
      | ok key =>
        have tree : t.tree.serve (.remove ⟨key, newPrefixKey_valid made⟩) = .ok after.tree ∧
            after.desc = t.desc ∧ after.actions = t.actions := by
          simp only [serve, removeEntry, made] at served
          rw [Table.serve]
          generalize t.tree.remove key = removed at served
          cases removed with
          | ok tree | error message =>
            cases served
            exact ⟨rfl, rfl, rfl⟩
          | panic | diverge => cases served
        obtain ⟨treeValid, held⟩ := Table.serve_correct valid tree.1
        exact ⟨treeValid, tree.2.1, tree.2.2, by simp only [Call.apply, made, held, Table.Request.apply]⟩

theorem serveAll_correct (valid : t.tree.Valid) {calls : List (Call A)}
    (served : t.serveAll texts calls = .ok after) :
    after.tree.Valid ∧ after.desc = t.desc ∧ after.actions = t.actions ∧
      after.tree.stored = calls.foldl (Call.apply texts t.desc) t.tree.stored := by
  induction calls generalizing t with
  | nil =>
    cases served
    exact ⟨valid, rfl, rfl, rfl⟩
  | cons call calls ih =>
    rw [serveAll, List.foldlM_cons] at served
    obtain ⟨next, first, rest⟩ := Outcome.bind_eq_ok.mp served
    obtain ⟨nextValid, nextDesc, nextActions, nextStored⟩ := serve_correct valid first
    obtain ⟨afterValid, afterDesc, afterActions, afterStored⟩ := ih nextValid rest
    refine ⟨afterValid, afterDesc.trans nextDesc, afterActions.trans nextActions, ?_⟩
    rw [afterStored, nextDesc, nextStored, List.foldl_cons]

def new (actions : List A) : EntryTable A :=
  { desc, actions, tree := Table.empty }

theorem serveAll_new {desc : List FieldID} {actions : List A} {calls : List (Call A)}
    (served : (new desc actions).serveAll texts calls = .ok t) :
    t.tree.Valid ∧ t.desc = desc ∧ t.actions = actions ∧
      t.tree.stored = Call.applyAll texts desc calls := by
  have start : (Table.empty : Table A).stored = fun _ => none := funext Table.empty_stored
  rw [Call.applyAll, ← start]
  exact serveAll_correct Table.empty_valid served

-- What `Process` is for: the actions of the longest stored prefix of the packet's key, and the default
-- actions if there is none.
def expected (held : Table.Stored A) (desc : List FieldID) (actions : List A)
    (packet : PacketFields) : List A :=
  (longestMatch held (bitString (makePacketKey desc packet))).getD actions

theorem process_expected_iff (texts : Texts) (desc : List FieldID) (actions : List A)
    (calls : List (Call A)) (t : EntryTable A)
    (served : (new desc actions).serveAll texts calls = .ok t) (packet : PacketFields) :
    t.process packet = .ok (expected (Call.applyAll texts desc calls) desc actions packet) ↔
      (longestMatch (Call.applyAll texts desc calls) (bitString (makePacketKey desc packet)) = some [] →
        actions = []) := by
  obtain ⟨valid, sameDesc, sameActions, held⟩ := serveAll_new served
  obtain ⟨record, found⟩ := Table.match_correct valid (makePacketKey t.desc packet)
  rw [held, sameDesc] at found
  simp only [process, sameDesc, found, Outcome.ok_bind, Outcome.pure_eq, Outcome.ok.injEq, expected,
    sameActions]
  cases longest : longestMatch (Call.applyAll texts desc calls)
      (bitString (makePacketKey desc packet)) with
  | none => simp
  | some hit =>
    cases hit with
    | nil => simp
    | cons action rest => simp

section Samples

def protoField : FieldID := { num := PacketFieldNum.ipProto }

def protoEntry (value : UInt8) : List PacketFieldMaskedBytes :=
  [{ fieldId := { field := some ⟨PacketFieldNum.ipProto, 0⟩ }, bytes := [value], masks := [] }]

def protoPacket (value : UInt8) : PacketFields :=
  fun id => if id = protoField then some [value] else none

def noTexts : Texts := ⟨fun _ => "", fun _ => "", fun _ => ""⟩

theorem process_tcp :
    ∃ t, (new [protoField] [7]).serveAll noTexts [.add (some (protoEntry 6)) (.ok [1, 2])] = .ok t ∧
      t.process (protoPacket 6) = .ok [1, 2] := by
  refine ⟨_, rfl, ?_⟩
  exact (process_expected_iff noTexts [protoField] [7] [.add (some (protoEntry 6)) (.ok [1, 2])] _ rfl
    (protoPacket 6)).mpr fun empty => by cases empty

-- The entry that the packet matches has no actions, and the default action 7 is taken.
theorem empty_entry_default :
    ∃ t, (new [protoField] [7]).serveAll noTexts [.add (some (protoEntry 6)) (.ok [])] = .ok t ∧
      longestMatch t.tree.stored (bitString (makePacketKey [protoField] (protoPacket 6))) = some [] ∧
      t.process (protoPacket 6) = .ok [7] :=
  ⟨_, rfl, rfl, rfl⟩

end Samples

end EntryTable

end

open Packet Shared
open Lemming.Flow (PacketFieldMaskedBytes PacketFields PacketFits packetBytes packetBytes_length)

theorem byteOnes (byte : UInt8) :
    nibbleOnes (byte &&& 0x0F) + nibbleOnes ((byte >>> 4) &&& 0x0F) = (byteBits byte).count true := by
  have all : ∀ n : Fin 256, nibbleOnes (UInt8.ofFin n &&& 0x0F) +
      nibbleOnes ((UInt8.ofFin n >>> 4) &&& 0x0F) = (byteBits (UInt8.ofFin n)).count true := by
    decide +kernel
  exact all byte.toFin

theorem Count_eq (bytes : Bytes) : Count bytes = (bitString bytes).count true := by
  have from_start (start : Nat) :
      bytes.foldl (fun c w => c + (nibbleOnes (w &&& 0x0F) + nibbleOnes ((w >>> 4) &&& 0x0F))) start =
        start + (bitString bytes).count true := by
    induction bytes generalizing start with
    | nil => rfl
    | cons byte rest ih =>
      rw [List.foldl_cons, ih, byteOnes, bitString_cons, List.count_append, Nat.add_assoc]
  rw [Count, from_start, Nat.zero_add]

def fieldMask (id : FieldID) (desc : PacketFieldMaskedBytes) : List Bool :=
  List.replicate (8 * (Parser.maxSize id - desc.bytes.length)) true ++ bitString desc.masks

def fieldBits (id : FieldID) (desc : PacketFieldMaskedBytes) : List Bool :=
  bitString (pad Parser.maxSize id desc.bytes)

def FieldsMatch (set : GoMap FieldID PacketFieldMaskedBytes) (packet : PacketFields)
    (test : FieldID → PacketFieldMaskedBytes → Prop) : List FieldID → Prop
  | [] => True
  | [id] => ∃ desc, set.lookup id = some desc ∧ test id desc
  | id :: rest => (∃ desc, set.lookup id = some desc ∧
      pad Parser.maxSize id desc.bytes = packetBytes Parser.maxSize packet id) ∧
        FieldsMatch set packet test rest

def packetBits (packet : PacketFields) (id : FieldID) : List Bool :=
  bitString (packetBytes Parser.maxSize packet id)

variable (set : GoMap FieldID PacketFieldMaskedBytes)

-- What an entry is for: a packet has the value of each field, of the last one under its mask.
def Means (packet : PacketFields) (kd : List FieldID) :
    Prop :=
  FieldsMatch set packet
    (fun id desc => AgreeUnder (fieldMask id desc) (fieldBits id desc) (packetBits packet id)) kd

def Compares (packet : PacketFields)
    (kd : List FieldID) : Prop :=
  FieldsMatch set packet (fun id desc =>
    (fieldBits id desc).take ((fieldMask id desc).count true) =
      (packetBits packet id).take ((fieldMask id desc).count true)) kd

def LastMaskIsRun (kd : List FieldID) : Prop :=
  ∀ id ∈ kd.getLast?, ∀ desc, set.lookup id = some desc → IsRun (bitString desc.masks)

theorem take_prefix_iff {α : Type} {first second : List α} {n : Nat}
    (same : first.length = second.length) :
    first.take n <+: second ↔ first.take n = second.take n := by
  rw [List.prefix_iff_eq_take, List.length_take]
  by_cases short : n ≤ first.length
  · rw [Nat.min_eq_left short]
  · rw [Nat.min_eq_right (by omega), List.take_of_length_le (Nat.le_of_eq same.symm),
      List.take_of_length_le (l := second) (by omega)]

section Keys

variable {texts : Texts} {ed : List PacketFieldMaskedBytes}
  {set : GoMap FieldID PacketFieldMaskedBytes} {packet : PacketFields}

def SameSizes (set : GoMap FieldID PacketFieldMaskedBytes) : Prop :=
  ∀ id desc, set.lookup id = some desc → desc.masks.length = desc.bytes.length

theorem maskBits_eq {desc : PacketFieldMaskedBytes} (same : desc.masks.length = desc.bytes.length) :
    maskBits desc = (bitString desc.masks).count true := by
  unfold maskBits
  split
  · next none =>
    rw [none, List.length_nil] at same
    simp [none, ← same, Calculate]
  · exact Count_eq desc.masks

variable {kd : List FieldID} {result start : Bytes × Nat} {pos : Nat}

theorem keyLoop_prefix_iff (sizes : SameSizes set) (fits : PacketFits Parser.maxSize packet)
    (built : keyLoop texts ed set pos kd start = .ok result) (aligned : start.2 = 8 * start.1.length)
    {l : Bytes} (same : start.1.length = l.length) :
    (bitString result.1).take result.2 <+: bitString (l ++ makePacketKey kd packet) ↔
      start.1 = l ∧ Compares set packet kd := by
  induction kd generalizing pos start l with
  | nil =>
    cases built
    rw [aligned, ← bitString_length, List.take_length, bitString_append]
    have split := @List.prefix_append_inj_of_length_eq _ [] (bitString (makePacketKey [] packet)) _ _
      (show (bitString result.1).length = (bitString l).length by simp [same])
    rw [List.append_nil] at split
    rw [split]
    simp only [List.nil_prefix, and_true, Compares, FieldsMatch]
    exact ⟨bitString_injective, congrArg bitString⟩
  | cons id rest ih =>
    obtain ⟨desc, found, valid, whole, built⟩ := keyLoop_cons built
    have room := Parser.le_maxSize_of_validate valid
    have size : (pad Parser.maxSize id desc.bytes).length = Parser.maxSize id := by
      rw [pad_length, Nat.max_eq_left room]
    have packetSize := packetBytes_length fits id
    have key : makePacketKey (id :: rest) packet =
        packetBytes Parser.maxSize packet id ++ makePacketKey rest packet := by
      rw [makePacketKey, List.flatMap_cons]
      rfl
    have bits := maskBits_eq (sizes id desc found)
    cases rest with
    | nil =>
      cases built
      have counted : (fieldMask id desc).count true =
          maskBits desc + (8 * Parser.maxSize id - 8 * desc.bytes.length) := by
        rw [fieldMask, List.count_append, List.count_replicate_self, bits]
        omega
      have front : (bitString start.1).length = start.2 := by
        rw [bitString_length, aligned]
      rw [key, makePacketKey, List.flatMap_nil, List.append_nil, bitString_append, bitString_append,
        ← front, List.take_length_add_append,
        List.prefix_append_inj_of_length_eq (by simp [same]), size]
      simp only [Calculate, byteBitCount, ← counted]
      rw [take_prefix_iff (by simp [size, packetSize])]
      refine and_congr ⟨bitString_injective, congrArg bitString⟩ ?_
      simp [Compares, FieldsMatch, found, fieldBits, packetBits]
    | cons next rest =>
      have full : maskBits desc = 8 * desc.bytes.length := whole (by simp)
      rw [key, ← List.append_assoc]
      rw [ih built (by simp [aligned, full, size, Calculate, byteBitCount]; omega)
        (by simp [same, size, packetSize])]
      have apart : start.1 ++ pad Parser.maxSize id desc.bytes =
          l ++ packetBytes Parser.maxSize packet id ↔
          start.1 = l ∧ pad Parser.maxSize id desc.bytes = packetBytes Parser.maxSize packet id :=
        ⟨fun equal => List.append_inj equal same, fun both => by rw [both.1, both.2]⟩
      simp only [apart, Compares, FieldsMatch, found, Option.some_inj, exists_eq_left', and_assoc]

theorem keyLoop_bits_le_bytes (sizes : SameSizes set) (built : keyLoop texts ed set pos kd start = .ok result)
    (short : start.2 ≤ 8 * start.1.length) : result.2 ≤ 8 * result.1.length := by
  induction kd generalizing pos start with
  | nil =>
    cases built
    exact short
  | cons id rest ih =>
    obtain ⟨desc, found, valid, -, built⟩ := keyLoop_cons built
    have same := sizes id desc found
    have ones : maskBits desc ≤ 8 * desc.bytes.length := by
      rw [maskBits_eq same, ← same, ← bitString_length]
      exact List.count_le_length
    apply ih built
    simp only [List.length_append, pad_length, Calculate, byteBitCount]
    omega

theorem keyLoop_fields (built : keyLoop texts ed set pos kd start = .ok result) :
    (∀ id ∈ kd, ∃ desc, set.lookup id = some desc ∧ desc.bytes.length ≤ Parser.maxSize id) ∧
      ∀ id ∈ kd.dropLast, ∀ desc, set.lookup id = some desc →
        maskBits desc = Calculate desc.bytes.length := by
  induction kd generalizing pos start with
  | nil => simp
  | cons id rest ih =>
    obtain ⟨desc, found, valid, whole, built⟩ := keyLoop_cons built
    obtain ⟨present, full⟩ := ih built
    refine ⟨List.forall_mem_cons.mpr ⟨⟨desc, found, Parser.le_maxSize_of_validate valid⟩, present⟩, ?_⟩
    cases rest with
    | nil => simp
    | cons next rest =>
      rw [List.dropLast_cons_cons]
      refine List.forall_mem_cons.mpr ⟨fun other lookup => ?_, full⟩
      cases found.symm.trans lookup
      exact whole (by simp)

theorem fieldsMatch_concat {test : FieldID → PacketFieldMaskedBytes → Prop} {front : List FieldID}
    {last : FieldID} :
    FieldsMatch set packet test (front ++ [last]) ↔
      (∀ id ∈ front, ∃ desc, set.lookup id = some desc ∧
        pad Parser.maxSize id desc.bytes = packetBytes Parser.maxSize packet id) ∧
      ∃ desc, set.lookup last = some desc ∧ test last desc := by
  induction front with
  | nil => simp [FieldsMatch]
  | cons id front ih =>
    rw [List.forall_mem_cons, and_assoc, ← ih]
    cases front with
    | nil => simp [FieldsMatch]
    | cons next front => rfl

theorem fieldMask_length {id : FieldID} {desc : PacketFieldMaskedBytes}
    (same : desc.masks.length = desc.bytes.length) (room : desc.bytes.length ≤ Parser.maxSize id) :
    (fieldMask id desc).length = (fieldBits id desc).length := by
  rw [fieldMask, fieldBits, List.length_append, List.length_replicate, bitString_length,
    bitString_length, pad_length, same]
  omega

theorem compares_iff_means (run : LastMaskIsRun set kd) :
    Compares set packet kd ↔ Means set packet kd := by
  obtain rfl | ⟨front, last, rfl⟩ := List.eq_nil_or_concat kd
  · rfl
  · rw [List.concat_eq_append] at run ⊢
    rw [Compares, Means, fieldsMatch_concat, fieldsMatch_concat]
    refine and_congr_right fun _ => exists_congr fun desc => and_congr_right fun found => ?_
    have ones := run last (by simp) desc found
    exact (agreeUnder_iff_take ((isRun_ones_append _).mpr ones)).symm

theorem exists_means_not_compares (sizes : SameSizes set) (built : keyLoop texts ed set pos kd start = .ok result)
    (mixed : ¬ LastMaskIsRun set kd) :
    ∃ packet, PacketFits Parser.maxSize packet ∧ Means set packet kd ∧ ¬ Compares set packet kd := by
  unfold LastMaskIsRun at mixed
  push Not at mixed
  obtain ⟨last, isLast, desc, found, noRun⟩ := mixed
  obtain ⟨front, rfl⟩ := List.getLast?_eq_some_iff.mp isLast
  obtain ⟨present, full⟩ := keyLoop_fields built
  rw [List.dropLast_concat] at full
  have room : desc.bytes.length ≤ Parser.maxSize last := by
    obtain ⟨other, lookup, room⟩ := present last (by simp)
    cases found.symm.trans lookup
    exact room
  have same := sizes last desc found
  -- A field that is also listed before the last one has a mask of ones only.
  have apart : ∀ id ∈ front, id ≠ last := by
    rintro id member rfl
    apply noRun
    apply isRun_of_full
    rw [← maskBits_eq same, full id member desc found, bitString_length, same]
    rfl
  obtain ⟨i, b, within, agrees, differs⟩ := exists_flip_of_not_isRun
    (fun run => noRun ((isRun_ones_append _).mp run)) (fieldMask_length same room)
  obtain ⟨flipped, -, bits⟩ := Wordset.set_correct (pad Parser.maxSize last desc.bytes) i b
    (by simpa [fieldBits] using within)
  have size : flipped.length = Parser.maxSize last := by
    have lengths := congrArg List.length bits
    rw [bitString_length, List.length_set, bitString_length, pad_length, Nat.max_eq_left room] at lengths
    omega
  let packet : PacketFields := fun id =>
    if id = last then some flipped
    else if id ∈ front then (set.lookup id).map (·.bytes) else none
  have fits : PacketFits Parser.maxSize packet := by
    intro id bytes carried
    simp only [packet] at carried
    split at carried
    · next isLast =>
      cases carried
      exact Nat.le_of_eq (isLast ▸ size)
    · split at carried
      · next member =>
        obtain ⟨other, lookup, room⟩ := present id (List.mem_append_left _ member)
        rw [lookup] at carried
        cases carried
        exact room
      · cases carried
  have lastBits : packetBits packet last = (fieldBits last desc).set i b := by
    have whole : pad Parser.maxSize last flipped = flipped := by
      simp [pad, resize, size]
    rw [packetBits, packetBytes, show packet last = some flipped from if_pos rfl, Option.getD_some,
      whole, bits, fieldBits]
  refine ⟨packet, fits, ?_, ?_⟩
  · rw [Means, fieldsMatch_concat]
    refine ⟨fun id member => ?_, desc, found, lastBits ▸ agrees⟩
    obtain ⟨other, lookup, -⟩ := present id (List.mem_append_left _ member)
    refine ⟨other, lookup, ?_⟩
    simp [packetBytes, packet, apart id member, member, lookup]
  · rw [Compares, fieldsMatch_concat]
    rintro ⟨-, other, lookup, equal⟩
    cases found.symm.trans lookup
    exact differs (lastBits ▸ equal)

end Keys

theorem mem_of_fieldSet {ed : List PacketFieldMaskedBytes} {id : FieldID}
    {desc : PacketFieldMaskedBytes} (listed : (fieldSet ed).lookup id = some desc) : desc ∈ ed := by
  have from_start (ed : List PacketFieldMaskedBytes) (start : GoMap FieldID PacketFieldMaskedBytes)
      (found : (ed.foldl (fun set desc => set.insert (newFieldID desc.fieldId) desc) start).lookup id =
        some desc) : start.lookup id = some desc ∨ desc ∈ ed := by
    induction ed generalizing start with
    | nil => exact Or.inl found
    | cons first rest ih =>
      rw [List.foldl_cons] at found
      rcases ih _ found with earlier | later
      · by_cases same : id = newFieldID first.fieldId
        · rw [same, AList.lookup_insert] at earlier
          cases earlier
          exact Or.inr List.mem_cons_self
        · rw [AList.lookup_insert_ne same] at earlier
          exact Or.inl earlier
      · exact Or.inr (List.mem_cons_of_mem _ later)
  rcases from_start ed ∅ listed with none | member
  · rw [AList.lookup_empty] at none
    cases none
  · exact member

def packetKey (kd : List FieldID) (packet : PacketFields) : Key :=
  newKey (makePacketKey kd packet) (Calculate (makePacketKey kd packet).length)

theorem hasPrefix_iff_compares {texts : Texts} {kd : List FieldID} {ed : List PacketFieldMaskedBytes}
    (sizes : SameSizes (fieldSet ed)) {result : Bytes × Nat}
    (built : keyLoop texts ed (fieldSet ed) 0 kd ([], 0) = .ok result) {packet : PacketFields}
    (fits : PacketFits Parser.maxSize packet) :
    (packetKey kd packet).hasPrefix (newKey result.1 result.2) = .ok true ↔
      Compares (fieldSet ed) packet kd := by
  have short := keyLoop_bits_le_bytes sizes built (Nat.le_refl _)
  have compared := keyLoop_prefix_iff sizes fits built rfl (l := []) rfl
  rw [packetKey, Key.hasPrefix_correct (newKey_valid _ _) (newKey_valid _ _), newKey_take short,
    Calculate, byteBitCount, newKey_bits, Outcome.ok.injEq, decide_eq_true_iff]
  simpa using compared

theorem hasPrefix_means_iff (texts : Texts) (kd : List FieldID) (ed : List PacketFieldMaskedBytes)
    (key : Key) (made : newPrefixKey texts kd ed = .ok key)
    (sizes : ∀ desc ∈ ed, desc.masks.length = desc.bytes.length) :
    (∀ packet, PacketFits Parser.maxSize packet →
      ((packetKey kd packet).hasPrefix key = .ok true ↔ Means (fieldSet ed) packet kd)) ↔
      LastMaskIsRun (fieldSet ed) kd := by
  obtain ⟨result, built, rfl⟩ := newPrefixKey_built made
  have sameSizes : SameSizes (fieldSet ed) := fun _ desc found => sizes desc (mem_of_fieldSet found)
  constructor
  · intro means
    by_contra mixed
    obtain ⟨packet, fits, meant, left⟩ := exists_means_not_compares sameSizes built mixed
    exact left ((hasPrefix_iff_compares sameSizes built fits).mp ((means packet fits).mpr meant))
  · intro run packet fits
    rw [hasPrefix_iff_compares sameSizes built fits, compares_iff_means run]

section Samples

open EntryTable (protoField protoPacket noTexts)

def maskedProto (value mask : UInt8) : List PacketFieldMaskedBytes :=
  [{ fieldId := { field := some ⟨PacketFieldNum.ipProto, 0⟩ }, bytes := [value], masks := [mask] }]

theorem first_half_means :
    ∃ key, newPrefixKey noTexts [protoField] (maskedProto 0x60 0xF0) = .ok key ∧
      ∀ packet, PacketFits Parser.maxSize packet →
        ((packetKey [protoField] packet).hasPrefix key = .ok true ↔
          Means (fieldSet (maskedProto 0x60 0xF0)) packet [protoField]) := by
  refine ⟨_, rfl, ?_⟩
  refine (hasPrefix_means_iff noTexts [protoField] (maskedProto 0x60 0xF0) _ rfl (by decide)).mpr ?_
  intro id last desc found
  cases last
  cases found
  decide

-- The mask asks for the second half, and the key compares the first: a packet with protocol 0x16 is
-- meant and left out.
theorem second_half_left_out :
    ∃ key, newPrefixKey noTexts [protoField] (maskedProto 0x06 0x0F) = .ok key ∧
      PacketFits Parser.maxSize (protoPacket 0x16) ∧
      Means (fieldSet (maskedProto 0x06 0x0F)) (protoPacket 0x16) [protoField] ∧
      (packetKey [protoField] (protoPacket 0x16)).hasPrefix key = .ok false := by
  refine ⟨_, rfl, ?_, ⟨_, rfl, by decide +kernel⟩, rfl⟩
  intro id bytes carried
  unfold protoPacket at carried
  split at carried
  · next same =>
    cases carried
    rw [same]
    decide
  · cases carried

end Samples

end Lemming.Prefix
