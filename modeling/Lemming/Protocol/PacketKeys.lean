import Lemming.Exact.Table
import Lemming.Flow.Desc
import Lemming.Protocol.FieldSizes

set_option autoImplicit false

namespace Lemming.Protocol

open Shared Lemming.Packet Lemming.Packet.Parser

def Known (id : FieldID) : Prop :=
  (if id.isUDF then groupNumbers.lookup id.header else fieldGroup id.num).isSome = true

instance (id : FieldID) : Decidable (Known id) :=
  inferInstanceAs (Decidable (_ = true))

namespace Packet

def makePacketKey : List FieldID → Packet → Outcome (Bytes × Packet)
  | [], packet => .ok ([], packet)
  | id :: rest, packet => do
    let (field, packet) ← (packet.field id).ignoreError ([], packet)
    let (key, packet) ← makePacketKey rest packet
    return (pad maxSize id field ++ key, packet)

variable (packet : Packet)

def fields (id : FieldID) : Option Bytes :=
  match packet.field id with
  | .ok (field, _) => some field
  | _ => none

def option (num : Int32) : Option Nat :=
  (slot .payload [] packet.headers).bind fun (_, desc, _) => desc.handler.option num

def Overlong (id : FieldID) : Prop :=
  ∃ n, packet.option id.num = some n ∧ maxSize id < n

structure Untouched : Prop where
  sound : packet.Sound
  compact : Desc.Compact packet.headers
  metadata : ∀ desc ∈ packet.headers, ∀ md, desc.handler = .metadata md →
    ∃ length, md = newMetadata length

end Packet

section Fields

variable {packet : Packet} {id : FieldID}

theorem newPacket_untouched {fuel : Nat} {start : HeaderId} {frame spare : Bytes}
    (parsed : newPacket fuel start frame spare = .ok packet) : packet.Untouched := by
  obtain ⟨descs, tail, -, fresh, covered⟩ := Packet.newPacket_ok parsed
  have sound := (fresh.sound covered).1
  obtain ⟨rfl, ordered, freshAll⟩ := fresh
  refine ⟨sound, ?_, ?_⟩
  · rintro desc (_ | ⟨_, mem⟩)
    · trivial
    · exact Desc.placeAll_compact desc mem
  · rintro desc (_ | ⟨_, mem⟩) md isMetadata
    · exact ⟨_, Handler.metadata.inj isMetadata.symm⟩
    · -- The other descriptors stand behind the metadata group.
      have placed : Desc.Ordered 1 (Desc.placeAll 0 descs) := Desc.placeAll_ordered ordered
      have later := placed.low_le desc mem
      rw [(sound.sound desc (List.mem_cons_of_mem _ mem)).2, isMetadata] at later
      exact absurd later (by simp [Handler.group, HeaderGroup.position])

theorem slot_mem {group : HeaderGroup} {headers above below : List (Desc Slice)} {desc : Desc Slice}
    (found : slot group [] headers = some (above, desc, below)) : desc ∈ headers := by
  obtain ⟨isHeaders, -⟩ := slot_some found
  rw [List.reverse_nil, List.nil_append] at isHeaders
  simp [← isHeaders]

theorem udfLoop_heap {headers : List (Desc Slice)} {heap : Heap UInt8}
    (inside : Desc.Inside heap headers) (compact : Desc.Compact headers) (groups : List HeaderGroup)
    (offset : UInt8) : (Packet.udfLoop headers heap groups offset).1 = heap := by
  induction groups generalizing offset with
  | nil => rfl
  | cons group groups ih =>
    rw [Packet.udfLoop]
    cases found : slot group [] headers with
    | none => exact ih offset
    | some place =>
      obtain ⟨above, desc, below⟩ := place
      have mem := slot_mem found
      have same := Handler.header_compact (inside desc mem) (compact desc mem)
      simp only [same]
      split
      · rfl
      · exact ih _

theorem fieldDesc_unknown (unknown : ¬ Known id) : packet.fieldDesc id = .panic := by
  unfold Known at unknown
  unfold Packet.fieldDesc
  split
  · rename_i isUDF
    rw [if_pos isUDF, Bool.not_eq_true, Option.isSome_eq_false_iff, Option.isNone_iff_eq_none] at unknown
    rw [unknown]
  · rename_i named
    rw [if_neg named, Bool.not_eq_true, Option.isSome_eq_false_iff, Option.isNone_iff_eq_none] at unknown
    rw [unknown]

theorem fieldDesc_known (untouched : packet.Untouched) (known : Known id) :
    ∃ group offset, packet.fieldDesc id = .ok (packet.heap, group, { id with offset }) ∧
      (id.isUDF = false → group = fieldGroup id.num ∧ offset = id.offset) := by
  unfold Known at known
  unfold Packet.fieldDesc
  split
  · rename_i isUDF
    rw [if_pos isUDF] at known
    obtain ⟨group, isGroup⟩ := Option.isSome_iff_exists.mp known
    have same := udfLoop_heap untouched.sound.inside untouched.compact
      (sequence.drop group.position) id.offset
    rw [isGroup]
    dsimp only
    split
    · rename_i heap found offset isLoop
      rw [isLoop] at same
      exact ⟨_, _, by rw [show heap = packet.heap from same], fun named => by simp [named] at isUDF⟩
    · rename_i heap isLoop
      rw [isLoop] at same
      exact ⟨_, id.offset, by rw [show heap = packet.heap from same], fun named => by simp [named] at isUDF⟩
  · rename_i named
    rw [if_neg named] at known
    obtain ⟨group, isGroup⟩ := Option.isSome_iff_exists.mp known
    rw [isGroup]
    exact ⟨some group, id.offset, rfl, fun _ => ⟨rfl, rfl⟩⟩

theorem field_unknown (unknown : ¬ Known id) : packet.field id = .panic := by
  rw [Packet.field, fieldDesc_unknown unknown]
  rfl

theorem handler_option_none {handler : Handler Slice} {num : Int32}
    (other : ¬ (num = ndSLLField ∨ num = ndTLLField)) : handler.option num = none := by
  rw [not_or] at other
  unfold Handler.option
  split
  · rw [if_neg other.1, if_neg other.2]
    rfl
  · rfl

theorem option_none {num : Int32} (other : ¬ (num = ndSLLField ∨ num = ndTLLField)) :
    packet.option num = none := by
  unfold Packet.option
  cases slot .payload [] packet.headers with
  | none => rfl
  | some place => exact handler_option_none other

theorem option_group {group : Option HeaderGroup} {offset : UInt8} (requested : Requested id)
    (isOption : id.num = ndSLLField ∨ id.num = ndTLLField)
    (isNamed : id.isUDF = false → group = fieldGroup id.num ∧ offset = id.offset) :
    group = some .payload := by
  have named := requested.named (by rcases isOption with is | is <;> rw [is] <;> decide)
  rw [(isNamed named).1]
  rcases isOption with isNum | isNum <;> rw [isNum] <;> rfl

theorem field_from (untouched : packet.Untouched) (known : Known id) (requested : Requested id) :
    (∃ message, packet.field id = .error message ∧ packet.option id.num = none) ∨
      ∃ desc ∈ packet.headers, ∃ offset, desc.handler.option id.num = packet.option id.num ∧
        packet.field id = (do
          let field ← (desc.handler.field packet.heap { id with offset }).wrap
            "Field failed for packet, err "
          return (field, packet)) := by
  obtain ⟨group, offset, isDesc, isNamed⟩ := fieldDesc_known untouched known
  rw [Packet.field, isDesc, Outcome.ok_bind]
  dsimp only
  cases found : group.bind fun group => slot group [] packet.headers with
  | none =>
    refine Or.inl ⟨_, rfl, ?_⟩
    by_cases isOption : id.num = ndSLLField ∨ id.num = ndTLLField
    · rw [option_group requested isOption isNamed, Option.bind_some] at found
      rw [Packet.option, found]
      rfl
    · exact option_none isOption
  | some place =>
    obtain ⟨above, desc, below⟩ := place
    have mem : desc ∈ packet.headers := by
      obtain ⟨place, -, isSlot⟩ := Option.bind_eq_some_iff.mp found
      exact slot_mem isSlot
    refine Or.inr ⟨desc, mem, offset, ?_, rfl⟩
    by_cases isOption : id.num = ndSLLField ∨ id.num = ndTLLField
    · rw [option_group requested isOption isNamed, Option.bind_some] at found
      rw [Packet.option, found]
      rfl
    · rw [option_none isOption, handler_option_none isOption]

theorem field_sized (untouched : packet.Untouched) (known : Known id) (requested : Requested id) :
    (packet.field id).Allows (fun (_, after) => after = packet) ∧
      ((pad maxSize id ((packet.fields id).getD [])).length = maxSize id ↔ ¬ packet.Overlong id) := by
  rcases field_from untouched known requested with
    ⟨message, isError, noOption⟩ | ⟨desc, mem, offset, sameOption, isField⟩
  · refine ⟨Or.inr ⟨message, isError⟩, iff_of_true ?_ ?_⟩
    · rw [Packet.fields, isError, pad_length]
      exact Nat.max_zero _
    · rintro ⟨n, has, -⟩
      rw [noOption] at has
      cases has
  · have inside := untouched.sound.inside desc mem
    have requested' : Requested { id with offset } := requested
    rw [Packet.fields]
    cases has : packet.option id.num with
    | none =>
      have fits : Sized { id with offset } (desc.handler.field packet.heap { id with offset }) :=
        Handler.field_fits inside (untouched.sound.sound desc mem).1 (untouched.metadata desc mem)
          requested' (sameOption.trans has)
      have short : ¬ packet.Overlong id := by
        rintro ⟨n, has', -⟩
        rw [has] at has'
        cases has'
      rcases fits with ⟨field, isOk, width⟩ | ⟨message, isError⟩
      · rw [isField, isOk]
        refine ⟨Or.inl ⟨_, rfl, rfl⟩, iff_of_true ?_ short⟩
        rw [pad_length]
        exact Nat.max_eq_left width
      · rw [isField, isError]
        refine ⟨Or.inr ⟨_, rfl⟩, iff_of_true ?_ short⟩
        rw [pad_length]
        exact Nat.max_zero _
    | some n =>
      obtain ⟨field, isOk, width⟩ := Handler.field_option inside requested' (sameOption.trans has)
      rw [isField, isOk]
      refine ⟨Or.inl ⟨_, rfl, rfl⟩, ?_⟩
      have overlong : packet.Overlong id ↔ maxSize id < n := by
        simp [Packet.Overlong, has]
      rw [overlong, pad_length, ← width]
      show max (maxSize id) field.length = maxSize id ↔ _
      omega

end Fields

section Keys

variable {packet : Packet} {ids : List FieldID}

theorem makePacketKey_cons {id : FieldID} (untouched : packet.Untouched) (known : Known id)
    (requested : Requested id) (rest : List FieldID) :
    packet.makePacketKey (id :: rest) = (do
      let made ← packet.makePacketKey rest
      return (Flow.packetBytes maxSize packet.fields id ++ made.1, made.2)) := by
  rw [Packet.makePacketKey, Flow.packetBytes, Packet.fields]
  rcases (field_sized untouched known requested).1 with
    ⟨⟨field, after⟩, isOk, rfl⟩ | ⟨message, isError⟩
  · rw [isOk]
    rfl
  · rw [isError]
    rfl

theorem makePacketKey_known (untouched : packet.Untouched) (known : ∀ id ∈ ids, Known id)
    (requested : ∀ id ∈ ids, Requested id) :
    packet.makePacketKey ids =
      .ok ((ids.map (Flow.packetBytes maxSize packet.fields)).flatten, packet) := by
  induction ids with
  | nil => rfl
  | cons id rest ih =>
    obtain ⟨isKnown, known⟩ := List.forall_mem_cons.mp known
    obtain ⟨isRequested, requested⟩ := List.forall_mem_cons.mp requested
    rw [makePacketKey_cons untouched isKnown isRequested, ih known requested]
    rfl

theorem makePacketKey_unknown (untouched : packet.Untouched) (requested : ∀ id ∈ ids, Requested id)
    (unknown : ∃ id ∈ ids, ¬ Known id) : packet.makePacketKey ids = .panic := by
  induction ids with
  | nil => simp at unknown
  | cons id rest ih =>
    obtain ⟨isRequested, requested⟩ := List.forall_mem_cons.mp requested
    by_cases isKnown : Known id
    · have later : ∃ id ∈ rest, ¬ Known id := by
        obtain ⟨other, mem, isOther⟩ := unknown
        rcases List.mem_cons.mp mem with rfl | later
        · exact absurd isKnown isOther
        · exact ⟨other, later, isOther⟩
      rw [makePacketKey_cons untouched isKnown isRequested, ih requested later]
      rfl
    · rw [Packet.makePacketKey, field_unknown isKnown]
      rfl

theorem key_length_iff (untouched : packet.Untouched) (known : ∀ id ∈ ids, Known id)
    (requested : ∀ id ∈ ids, Requested id) :
    (ids.map (Flow.packetBytes maxSize packet.fields)).flatten.length = (ids.map maxSize).sum ↔
      ∀ id ∈ ids, ¬ packet.Overlong id := by
  have isKey : (Flow.FieldList.mk ids 0).makePacketKey maxSize packet.fields =
      (ids.map (Flow.packetBytes maxSize packet.fields)).flatten := Flow.makePacketKey_eq _ _
  rw [← isKey]
  exact (Flow.makePacketKey_length_iff _ _).trans (forall₂_congr fun id mem =>
    (field_sized untouched (known id mem) (requested id mem)).2)

-- The flow and the exact key of a packet are the bytes read from it. They have the size of their
-- fields, and the entries of a flow table match by the fields they name alone.
def Packet.KeyFixed {A : Type} (env : Exact.Env A) (packet : Packet) (ids : List FieldID) : Prop :=
  (packet.makePacketKey ids).Yields fun (key, _) =>
    key.length = (ids.map maxSize).sum ∧
      Exact.makePacketKey { env with maxSize } ids packet.fields = key ∧
      ∀ size, (Flow.FieldList.mk ids size).makePacketKey maxSize packet.fields = key ∧
        ∀ fd : Flow.Desc, fd.Fits maxSize →
          (((Flow.FieldList.mk ids size).makeEntryKey maxSize fd).match key = true ↔
            ∀ id ∈ ids, ∀ field, fd.keys.lookup id = some field →
              field.Admits maxSize packet.fields id)

theorem key_fixed_iff {A : Type} (env : Exact.Env A) {fuel : Nat} {start : HeaderId}
    {frame spare : Bytes} (parsed : newPacket fuel start frame spare = .ok packet)
    (fields : List PacketFieldId) :
    packet.KeyFixed env (fields.map newFieldID) ↔
      ∀ id ∈ fields.map newFieldID, Known id ∧ ¬ packet.Overlong id := by
  have untouched := newPacket_untouched parsed
  have requested : ∀ id ∈ fields.map newFieldID, Requested id := by
    intro id mem
    obtain ⟨field, -, rfl⟩ := List.mem_map.mp mem
    exact newFieldID_requested field
  generalize fields.map newFieldID = ids at requested ⊢
  constructor
  · rintro ⟨⟨key, after⟩, isKey, sized, -⟩
    have known : ∀ id ∈ ids, Known id := by
      by_contra unknown
      rw [makePacketKey_unknown untouched requested (by simpa using unknown)] at isKey
      cases isKey
    rw [makePacketKey_known untouched known requested] at isKey
    cases isKey
    exact fun id mem => ⟨known id mem, (key_length_iff untouched known requested).mp sized id mem⟩
  · intro fits
    have known : ∀ id ∈ ids, Known id := fun id mem => (fits id mem).1
    have short : ∀ id ∈ ids, ¬ packet.Overlong id := fun id mem => (fits id mem).2
    refine ⟨_, makePacketKey_known untouched known requested,
      (key_length_iff untouched known requested).mpr short, rfl, fun size => ?_⟩
    have isKey : (Flow.FieldList.mk ids size).makePacketKey maxSize packet.fields =
        (ids.map (Flow.packetBytes maxSize packet.fields)).flatten :=
      Flow.makePacketKey_eq _ _
    refine ⟨isKey, fun fd fdFits => ?_⟩
    rw [← isKey]
    refine (Flow.match_fields fdFits ids ?_ _ [] rfl).trans ?_
    · intro id mem
      exact (field_sized untouched (known id mem) (requested id mem)).2.mpr (short id mem)
    · exact and_iff_right rfl

end Keys

section Samples

def address (last : UInt8) : Bytes :=
  [0xFE, 0x80, 0, 0, 0, 0, 0, 0, 0, 0, 0, 0, 0, 0, 0, last]

def solicitation (units : UInt8) : Bytes :=
  [2, 0, 0, 0, 0, 2, 2, 0, 0, 0, 0, 1, 0x86, 0xDD] ++
    [0x60, 0, 0, 0, 0, 24 + 8 * units, 58, 255] ++ address 1 ++ address 2 ++
    [135, 0, 0, 0, 0, 0, 0, 0] ++ address 2 ++
    [1, units] ++ List.replicate (8 * units.toNat - 2) 7

def listed : List PacketFieldId :=
  [{ field := some ⟨etherTypeField, 0⟩ }, { field := some ⟨ndSLLField, 0⟩ }]

def exactEnv : Exact.Env Unit where
  maxSize := maxSize
  validate := validate (fun _ => "") fun _ => ""
  isEqual := fun _ _ => true
  fieldText := fun _ => ""
  fieldsText := fun _ => ""
  keyText := fun _ => ""
  entryText := fun _ => ""

def allIPv6 : Outcome Flow.Desc :=
  Flow.newDesc [⟨{ field := some ⟨etherTypeField, 0⟩ }, [0x86, 0xDD], [0xFF, 0xFF]⟩] []

theorem plain_solicitation_key :
    ∃ packet, newPacket 100 .ethernet (solicitation 1) [] = .ok packet ∧
      packet.KeyFixed exactEnv (listed.map newFieldID) := by
  have run : (newPacket 100 .ethernet (solicitation 1) [] >>= fun packet =>
      .ok (packet.option etherTypeField, packet.option ndSLLField)) = .ok (none, some 6) := by
    decide +kernel
  obtain ⟨packet, parsed, isOk⟩ := Outcome.bind_eq_ok.mp run
  obtain ⟨noOption, isOption⟩ := Prod.mk.inj (Outcome.ok.inj isOk)
  refine ⟨packet, parsed, (key_fixed_iff exactEnv parsed listed).mpr ?_⟩
  simp only [listed, List.map_cons, List.map_nil, List.forall_mem_cons]
  refine ⟨⟨by decide, ?_⟩, ⟨by decide, ?_⟩, nofun⟩
  · rintro ⟨n, has, -⟩
    cases noOption.symm.trans has
  · rintro ⟨n, has, long⟩
    cases isOption.symm.trans has
    exact absurd long (by decide)

theorem long_option_lengthens_key :
    ∃ packet, newPacket 100 .ethernet (solicitation 2) [] = .ok packet ∧
      ((listed.map newFieldID).map maxSize).sum = 8 ∧
      (packet.makePacketKey (listed.map newFieldID)).Yields fun (key, _) =>
        key.take 2 = [0x86, 0xDD] ∧ key.length = 16 ∧
          allIPv6.Yields fun fd =>
            ((Flow.FieldList.mk (listed.map newFieldID) 8).makeEntryKey maxSize fd).match key = false := by
  have run : (do
      let packet ← newPacket 100 .ethernet (solicitation 2) []
      let made ← packet.makePacketKey (listed.map newFieldID)
      let fd ← allIPv6
      Outcome.ok (made.1.take 2, made.1.length,
        ((Flow.FieldList.mk (listed.map newFieldID) 8).makeEntryKey maxSize fd).match made.1)) =
      .ok ([0x86, 0xDD], 16, false) := by
    decide +kernel
  obtain ⟨packet, parsed, run⟩ := Outcome.bind_eq_ok.mp run
  obtain ⟨made, isKey, run⟩ := Outcome.bind_eq_ok.mp run
  obtain ⟨fd, isFlow, run⟩ := Outcome.bind_eq_ok.mp run
  obtain ⟨type, length, unmatched⟩ : _ ∧ _ ∧ _ := by simpa using run
  exact ⟨packet, parsed, by decide, made, isKey, type, length, fd, isFlow, unmatched⟩

end Samples

end Lemming.Protocol
