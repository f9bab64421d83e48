import Lemming.Protocol.Stability
import Lemming.Shared.Iteration
import Lemming.Protocol.Derivation

set_option autoImplicit false

namespace Lemming.Protocol

open Shared Lemming.Packet

namespace Packet

variable (packet : Packet)

def save : List FieldID → Packet → Outcome (List (FieldID × Bytes))
  | [], _ => .ok []
  | k :: fields, packet => do
    let (v, packet) ← (packet.field k).wrap "clone failed to query field, err "
    return (k, v) :: (← save fields packet)

def restore : List (FieldID × Bytes) → Packet → Outcome Packet
  | [], packet => .ok packet
  | (k, v) :: saved, packet => do
    let packet ← (packet.update k .set v).wrap "clone failed to restore field, err "
    restore saved packet

-- `order` is the iteration over the map of saved values, and `spare` what the array of the new frame
-- holds behind it.
variable (order : Shuffle (FieldID × Bytes)) (spare prepend : Bytes) (id : HeaderId)
  (fields : List FieldID)

def clone : Outcome Packet := do
  let (of, packet) ← packet.frame
  let saved ← packet.save fields.dedup
  let of := prepend ++ of
  let np ← (newPacket (of.length + 6) id of spare).wrap "clone failed to parse frame, err "
  restore (order.arrange saved) np

def reparse : Outcome Packet :=
  packet.clone order spare prepend id fields

end Packet

section Metadata

def Carried (id : FieldID) : Prop :=
  id.isUDF = false ∧
    id.num ∈ vrfField :: (Metadata.plainFields ++ Metadata.attributeSizes.map Prod.fst)

variable {packet : Packet} {id : FieldID} {md : Metadata} {dirty : Bool} {rest : List (Desc Slice)}

theorem Carried.group (carried : Carried id) : fieldGroup id.num = some .packet := by
  have all : (vrfField :: (Metadata.plainFields ++ Metadata.attributeSizes.map Prod.fst)).all
      fun num => fieldGroup num = some .packet := by decide +kernel
  exact of_decide_eq_true (List.all_eq_true.mp all _ carried.2)

theorem Carried.sized (carried : Carried id) (notVRF : id.num ≠ vrfField)
    (notPlain : id.num ∉ Metadata.plainFields) :
    ∃ size, Metadata.attributeSizes.lookup id.num = some size := by
  have mem := (List.mem_append.mp ((List.mem_cons.mp carried.2).resolve_left notVRF)).resolve_left notPlain
  have all : (Metadata.attributeSizes.map Prod.fst).all
      fun num => (Metadata.attributeSizes.lookup num).isSome := by decide +kernel
  exact Option.isSome_iff_exists.mp (List.all_eq_true.mp all _ mem)

theorem Carried.desc (carried : Carried id) (packet : Packet) :
    packet.fieldDesc id = .ok (packet.heap, some .packet, id) := by
  rw [Packet.fieldDesc, if_neg (by simp [carried.1]), carried.group]

theorem field_carried (carried : Carried id)
    (isHeaders : packet.headers = ⟨.packet, .metadata md, dirty⟩ :: rest) :
    ∃ value, packet.field id = .ok (value, packet) := by
  have isDesc := carried.desc packet
  obtain ⟨value, isValue⟩ : ∃ value, md.field id = .ok value := by
    rw [Metadata.field, if_neg (by simp [carried.1])]
    split
    · exact ⟨_, rfl⟩
    split
    · exact ⟨_, rfl⟩
    split
    · exact ⟨_, rfl⟩
    · rename_i notVRF other
      obtain ⟨size, isSize⟩ := carried.sized notVRF other
      rw [isSize]
      exact ⟨_, rfl⟩
  obtain ⟨start, heap, headers⟩ := packet
  obtain rfl : headers = _ := isHeaders
  refine ⟨value, ?_⟩
  rw [Packet.field, isDesc, Outcome.ok_bind]
  simp only [Option.bind_some, slot, if_true, Handler.field, isValue]
  rfl

theorem update_carried (carried : Carried id) (value : Bytes)
    (isHeaders : packet.headers = ⟨.packet, .metadata md, dirty⟩ :: rest) :
    ∃ md', packet.update id .set value =
      .ok { packet with headers := ⟨.packet, .metadata md', true⟩ :: rest } := by
  have isDesc := carried.desc packet
  obtain ⟨md', isSet⟩ : ∃ md', md.updateField id .set value = .ok md' := by
    rw [Metadata.updateField, if_neg (by simp [carried.1])]
    simp only [Metadata.updateSet]
    split
    · exact ⟨_, rfl⟩
    split
    · exact ⟨_, rfl⟩
    · rename_i notVRF other
      obtain ⟨size, isSize⟩ := carried.sized notVRF other
      rw [isSize]
      exact ⟨_, rfl⟩
  refine ⟨md', ?_⟩
  rw [Packet.update, isDesc, Outcome.ok_bind, isHeaders]
  simp only [Option.bind_some, slot, if_true, Handler.updateField, isSet]
  rfl

theorem save_carried {fields : List FieldID} (carried : ∀ id ∈ fields, Carried id)
    (isHeaders : packet.headers = ⟨.packet, .metadata md, dirty⟩ :: rest) :
    ∃ saved, packet.save fields = .ok saved ∧ ∀ entry ∈ saved, Carried entry.1 := by
  induction fields with
  | nil => exact ⟨[], rfl, nofun⟩
  | cons id fields ih =>
    obtain ⟨here, later⟩ := List.forall_mem_cons.mp carried
    obtain ⟨value, isValue⟩ := field_carried here isHeaders
    obtain ⟨saved, isSaved, all⟩ := ih later
    refine ⟨(id, value) :: saved, ?_, List.forall_mem_cons.mpr ⟨here, all⟩⟩
    rw [Packet.save, isValue]
    simp only [Outcome.wrap_ok, Outcome.ok_bind, isSaved]
    rfl

theorem restore_carried {saved : List (FieldID × Bytes)} (carried : ∀ entry ∈ saved, Carried entry.1) :
    ∀ {packet : Packet} {md : Metadata} {dirty : Bool},
      packet.headers = ⟨.packet, .metadata md, dirty⟩ :: rest →
      ∃ md' dirty', Packet.restore saved packet =
        .ok { packet with headers := ⟨.packet, .metadata md', dirty'⟩ :: rest } := by
  induction saved with
  | nil =>
    intro packet md dirty isHeaders
    exact ⟨md, dirty, by rw [← isHeaders]; rfl⟩
  | cons entry saved ih =>
    intro packet md dirty isHeaders
    obtain ⟨here, later⟩ := List.forall_mem_cons.mp carried
    obtain ⟨md₁, isSet⟩ := update_carried here entry.2 isHeaders
    obtain ⟨md', dirty', isRestored⟩ := @ih later { packet with headers := _ } md₁ true rfl
    refine ⟨md', dirty', ?_⟩
    rw [Packet.restore, isSet]
    exact isRestored

end Metadata

section Clones

variable {packet : Packet} {start id : HeaderId} {bytes spare prepend inner tail : Bytes}
  {layers : Layers} {fields : List FieldID}

theorem clone_new (sound : packet.Sound) {after np : Packet} {descs : List (Desc Bytes)}
    (isFrame : packet.frame = .ok (inner, after)) (carried : ∀ id ∈ fields, Carried id)
    (order : Shuffle (FieldID × Bytes))
    (isNew : newPacket ((prepend ++ inner).length + 6) id (prepend ++ inner) spare = .ok np)
    (fresh : np.Fresh id (prepend ++ inner) spare descs) :
    ∃ md dirty, packet.clone order spare prepend id fields = .ok ⟨id, [prepend ++ inner ++ spare],
      ⟨.packet, .metadata md, dirty⟩ :: Desc.placeAll 0 descs⟩ := by
  obtain ⟨_, isFrame', -, soundAfter⟩ := Packet.frame_yields sound
  cases isFrame'.symm.trans isFrame
  obtain ⟨md, dirty, rest, isHeaders⟩ := soundAfter.metadata
  obtain ⟨saved, isSaved, carriedAll⟩ :=
    save_carried (fun field mem => carried field (List.mem_dedup.mp mem)) isHeaders
  obtain ⟨rfl, -, -⟩ := fresh
  have isMetadata : Packet.headers ⟨id, [prepend ++ inner ++ spare],
      metadataDesc (prepend ++ inner).length :: Desc.placeAll 0 descs⟩ =
        ⟨.packet, .metadata (newMetadata (prepend ++ inner).length), false⟩ :: Desc.placeAll 0 descs := rfl
  obtain ⟨md', dirty', isRestored⟩ := restore_carried
    (fun entry mem => carriedAll entry ((order.mem_arrange saved entry).mp mem)) isMetadata
  refine ⟨md', dirty', ?_⟩
  rw [Packet.clone, isFrame]
  simp only [Outcome.ok_bind, isSaved, isNew, Outcome.wrap_ok]
  exact isRestored

theorem clone_carried (sound : packet.Sound) {after : Packet} (isFrame : packet.frame = .ok (inner, after))
    (carried : ∀ id ∈ fields, Carried id)
    (layout : packetFormat.Layout (resolve id (prepend ++ inner)) (prepend ++ inner) layers tail)
    (unheeding : resolve id (prepend ++ inner) ∉ [.tcp, .udp, .icmp6])
    (order : Shuffle (FieldID × Bytes)) (spare : Bytes) :
    ∃ packet', packet.clone order spare prepend id fields = .ok packet' ∧
      packet'.frame.Yields fun r => r.1 = flat (settle .none 0 layers) := by
  obtain ⟨np, isNew, descs, fresh, rfl⟩ := newPacket_of_layout spare layout
  obtain ⟨md, dirty, isClone⟩ := clone_new sound isFrame carried order isNew fresh
  have covered : prepend ++ inner = Desc.bytes descs ++ tail := by
    rw [← Desc.layersOf_bytes]
    exact layout.frame_eq
  exact ⟨_, isClone, frame_placed md dirty fresh.fresh covered layout fun heeds => absurd heeds unheeding⟩

end Clones

end Lemming.Protocol
