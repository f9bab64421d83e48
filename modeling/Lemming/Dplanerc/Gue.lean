import Lemming.Protocol.Cloning

set_option autoImplicit false

namespace Lemming.Dplanerc

open Shared Lemming.Packet Lemming.Protocol

structure GUE where
  isV6 : Bool
  srcIp : Bytes
  dstIp : Bytes
  dstPort : UInt32

inductive IPLayer where
  | ipv4 (version ihl protocol : Nat) (src dst : Bytes)
  | ipv6 (version nextHeader : Nat) (src dst : Bytes)

structure UDPLayer where
  srcPort : UInt16
  dstPort : UInt16
  length : UInt16

structure ReparseActionDesc where
  headerId : HeaderId
  fieldIds : List FieldID
  prepend : Bytes

section Actions

-- `gopacket.SerializeLayers` without options.
variable (serializeLayers : IPLayer → UDPLayer → Except String Bytes)

def gueActions (gueHeaders : GUE) : Except String (List ReparseActionDesc) := do
  let (ip, headerId) :=
    if !gueHeaders.isV6 then (IPLayer.ipv4 4 5 17 gueHeaders.srcIp gueHeaders.dstIp, HeaderId.ip4)
    else (IPLayer.ipv6 6 17 gueHeaders.srcIp gueHeaders.dstIp, HeaderId.ip6)
  let udp : UDPLayer := { srcPort := 0, dstPort := gueHeaders.dstPort.toUInt16, length := 34 }
  match serializeLayers ip udp with
  | .error message => .error ("failed to serialize GUE headers: " ++ message)
  | .ok prepend =>
    return [{
      headerId
      fieldIds := [nextHopIPField, portInputField, portOutputField, inputIfaceField, outputIfaceField,
        trapIDField, nextHopGroupIDField, nextHopIDField, vrfField].map fun num => { num }
      prepend }]

def UDPLayer.bytes (udp : UDPLayer) : Bytes :=
  octetsOf 2 udp.srcPort.toNat ++ octetsOf 2 udp.dstPort.toNat ++ octetsOf 2 udp.length.toNat ++ [0, 0]

-- Without options the lengths and checksums are not computed: the layers are written as they are, with
-- addresses of the size they have in a header.
structure Serializes : Prop where
  ipv4 : ∀ version ihl protocol src dst udp bytes,
    serializeLayers (.ipv4 version ihl protocol src dst) udp = .ok bytes → ∃ src' dst' : Bytes,
      src'.length = 4 ∧ dst'.length = 4 ∧
        bytes = octetsOf 1 (version * 16 + ihl) ++ List.replicate 8 0 ++ octetsOf 1 protocol ++ [0, 0] ++
          src' ++ dst' ++ udp.bytes
  ipv6 : ∀ version nextHeader src dst udp bytes,
    serializeLayers (.ipv6 version nextHeader src dst) udp = .ok bytes → ∃ src' dst' : Bytes,
      src'.length = 16 ∧ dst'.length = 16 ∧
        bytes = octetsOf 1 (version * 16) ++ List.replicate 5 0 ++ octetsOf 1 nextHeader ++ [0] ++
          src' ++ dst' ++ udp.bytes

end Actions

def applyAll (order : Shuffle (FieldID × Bytes)) (spare : Bytes) :
    List ReparseActionDesc → Packet → Outcome Packet
  | [], packet => .ok packet
  | action :: actions, packet => do
    applyAll order spare actions
      (← packet.reparse order spare action.prepend action.headerId action.fieldIds)

section Frames

variable {kind : HeaderId} {head u inner : Bytes}

theorem gue_layout (reads : packetFormat.Reads kind head (u ++ inner))
    (isNext : follow kind head = .udp) (large : 8 ≤ u.length) :
    packetFormat.Layout kind (head ++ u ++ inner)
      [(kind, head), (.udp, u ++ inner), (.opaqueData, [])] [] := by
  have next : packetFormat.next kind head (u ++ inner) = .udp := by
    have nonempty : u ++ inner ≠ [] := by
      rintro empty
      rw [(List.append_eq_nil_iff.mp empty).1] at large
      exact absurd large (by decide)
    simp only [packetFormat, nonempty, and_false, if_false]
    exact isNext
  have onward : packetFormat.Path (packetFormat.next kind head (u ++ inner)) (u ++ inner)
      [(.udp, u ++ inner), (.opaqueData, [])] .none [] := by
    rw [next]
    refine path_udp ?_
    rw [List.length_append]
    omega
  rw [List.append_assoc]
  exact .header reads onward

theorem gue_settled (inTunnel : kind.InTunnel) :
    flat (settle .none 0 [(kind, head), (.udp, u ++ inner), (.opaqueData, [])]) =
      derive kind .udp (u ++ inner).length head ++ u ++ inner := by
  have udp : ¬ HeaderId.udp.InTunnel := by decide
  have payload : ¬ HeaderId.opaqueData.InTunnel := by decide
  simp [settle, settleOne, flat, firstOf, inTunnel, udp, payload]

def CountsInner (isV6 : Bool) (out : Bytes) (inner : Nat) : Prop :=
  if isV6 then
    octetsValue (slice out 44 2) = 8 + inner ∧ octetsValue (slice out 4 2) = 8 + inner
  else octetsValue (slice out 24 2) = 8 + inner ∧ octetsValue (slice out 2 2) = 28 + inner

instance (isV6 : Bool) (out : Bytes) (inner : Nat) : Decidable (CountsInner isV6 out inner) :=
  inferInstanceAs (Decidable (ite _ _ _))

theorem udp_length (size : 8 ≤ u.length) :
    slice (head ++ u ++ inner) (head.length + 4) 2 = slice u 4 2 := by
  rw [List.append_assoc, slice, ← List.drop_drop, List.drop_left]
  exact slice_append (by omega) inner

variable {udp : UDPLayer}

theorem UDPLayer.bytes_length (udp : UDPLayer) : udp.bytes.length = 8 := by
  simp [bytes, octetsOf_length]

theorem UDPLayer.bytes_field (udp : UDPLayer) :
    octetsValue (slice udp.bytes 4 2) = udp.length.toNat := by
  have isField : slice udp.bytes 4 2 = octetsOf 2 udp.length.toNat := by
    simp [bytes, slice, octetsOf]
  rw [isField, octetsValue_octetsOf]
  exact Nat.mod_eq_of_lt udp.length.toNat_lt

theorem counts_iff {at' extra : Nat} (isTemplate : udp.length = 34) (few : extra ≤ 20)
    (isIP : slice head at' 2 = octetsOf 2 ((udp.bytes ++ inner).length + extra))
    (fits : at' + 2 ≤ head.length) :
    (octetsValue (slice (head ++ udp.bytes ++ inner) (head.length + 4) 2) = 8 + inner.length ∧
        octetsValue (slice (head ++ udp.bytes ++ inner) at' 2) = 8 + extra + inner.length) ↔
      inner.length = 26 := by
  have template : (34 : UInt16).toNat = 34 := rfl
  rw [udp_length (Nat.le_of_eq udp.bytes_length.symm), List.append_assoc, slice_append fits, isIP,
    udp.bytes_field, octetsValue_octetsOf, List.length_append, udp.bytes_length, isTemplate, template]
  omega

theorem counts_iff4 (size : head.length = 20) (isTemplate : udp.length = 34) :
    CountsInner false (derive .ip4 .udp (udp.bytes ++ inner).length head ++ udp.bytes ++ inner)
      inner.length ↔ inner.length = 26 := by
  have whole : (derive .ip4 .udp (udp.bytes ++ inner).length head).length = 20 :=
    (derive_length (Or.inl rfl) (by rw [size]; decide)).trans size
  have isIP := @derive_ip4_length .udp (udp.bytes ++ inner).length head (by omega)
  rw [size] at isIP
  have counts := counts_iff isTemplate (by decide) isIP (by omega)
  rwa [whole] at counts

theorem counts_iff6 (size : head.length = 40) (isTemplate : udp.length = 34) :
    CountsInner true (derive .ip6 .udp (udp.bytes ++ inner).length head ++ udp.bytes ++ inner)
      inner.length ↔ inner.length = 26 := by
  have whole : (derive .ip6 .udp (udp.bytes ++ inner).length head).length = 40 :=
    (derive_length (Or.inr (Or.inl rfl)) (by rw [size]; decide)).trans size
  have isIP := @derive_ip6_length .udp (udp.bytes ++ inner).length head (by omega)
  have counts := counts_iff isTemplate (Nat.zero_le _) isIP (by omega)
  rwa [whole] at counts

section Result

variable {serializeLayers : IPLayer → UDPLayer → Except String Bytes} {gue : GUE}
  {actions : List ReparseActionDesc} {packet : Packet}

theorem gueActions_ok (serializes : Serializes serializeLayers)
    (isOk : gueActions serializeLayers gue = .ok actions) :
    ∃ (kind : HeaderId) (head : Bytes) (udp : UDPLayer) (action : ReparseActionDesc),
      actions = [action] ∧ action.headerId = kind ∧ action.prepend = head ++ udp.bytes ∧
      (∀ id ∈ action.fieldIds, Carried id) ∧ udp.length = 34 ∧ follow kind head = .udp ∧
      (gue.isV6 = false ∧ kind = .ip4 ∧ head.length = 20 ∧ ihl head = 5 ∨
        gue.isV6 = true ∧ kind = .ip6 ∧ head.length = 40) := by
  have carried : ∀ id ∈ [nextHopIPField, portInputField, portOutputField, inputIfaceField,
      outputIfaceField, trapIDField, nextHopGroupIDField, nextHopIDField, vrfField].map
        (fun num => ({ num } : FieldID)), Carried id := by
    simp only [List.map_cons, List.map_nil, List.forall_mem_cons, Carried]
    decide
  have announced : (protoHeader.lookup 17).getD .opaqueData = .udp := by decide
  cases isV6 : gue.isV6 with
  | false =>
    simp only [gueActions, isV6, Bool.not_false, if_true] at isOk
    cases serialized : serializeLayers (.ipv4 4 5 17 gue.srcIp gue.dstIp)
        { srcPort := 0, dstPort := gue.dstPort.toUInt16, length := 34 } <;>
      rw [serialized] at isOk <;> cases isOk
    obtain ⟨src, dst, srcSize, dstSize, rfl⟩ := serializes.ipv4 _ _ _ _ _ _ _ serialized
    refine ⟨.ip4, _, _, _, rfl, rfl, rfl, carried, rfl, ?_, Or.inl ⟨rfl, rfl, ?_, ?_⟩⟩
    · simp [follow, slice, octetsOf, List.replicate, octetsValue, announced]
    · simp [srcSize, dstSize, octetsOf_length]
    · simp [ihl, slice, octetsOf, octetsValue]
  | true =>
    simp only [gueActions, isV6, Bool.not_true, Bool.false_eq_true, if_false] at isOk
    cases serialized : serializeLayers (.ipv6 6 17 gue.srcIp gue.dstIp)
        { srcPort := 0, dstPort := gue.dstPort.toUInt16, length := 34 } <;>
      rw [serialized] at isOk <;> cases isOk
    obtain ⟨src, dst, srcSize, dstSize, rfl⟩ := serializes.ipv6 _ _ _ _ _ _ serialized
    refine ⟨.ip6, _, _, _, rfl, rfl, rfl, carried, rfl, ?_, Or.inr ⟨rfl, rfl, ?_⟩⟩
    · simp [follow, slice, octetsOf, List.replicate, octetsValue, announced]
    · simp [srcSize, dstSize, octetsOf_length]

theorem gue_lengths_iff (serializes : Serializes serializeLayers)
    (isOk : gueActions serializeLayers gue = .ok actions) (sound : packet.Sound)
    (order : Shuffle (FieldID × Bytes)) (spare : Bytes) :
    ∃ inner after packet' out after', packet.frame = .ok (inner, after) ∧
      applyAll order spare actions packet = .ok packet' ∧ packet'.frame = .ok (out, after') ∧
      (CountsInner gue.isV6 out inner.length ↔ inner.length = 26) := by
  obtain ⟨kind, head, udp, action, rfl, isID, isPrepend, carried, isTemplate, isNext, version⟩ :=
    gueActions_ok serializes isOk
  obtain ⟨⟨inner, after⟩, isFrame, -⟩ := Packet.frame_yields sound
  have inTunnel : kind.InTunnel := by
    rcases version with ⟨-, rfl, -⟩ | ⟨-, rfl, -⟩
    · exact Or.inl rfl
    · exact Or.inr (Or.inl rfl)
  have reads : packetFormat.Reads kind head (udp.bytes ++ inner) := by
    rcases version with ⟨-, rfl, size, words⟩ | ⟨-, rfl, size⟩
    · exact ⟨by omega, by omega⟩
    · exact size
  have known : resolve kind (head ++ udp.bytes ++ inner) = kind := by
    rcases version with ⟨-, rfl, -⟩ | ⟨-, rfl, -⟩ <;> rfl
  rw [← isPrepend, ← isID] at known
  have layout : packetFormat.Layout (resolve action.headerId (action.prepend ++ inner))
      (action.prepend ++ inner) [(kind, head), (.udp, udp.bytes ++ inner), (.opaqueData, [])] [] := by
    rw [known, isID, isPrepend]
    exact gue_layout reads isNext (Nat.le_of_eq udp.bytes_length.symm)
  have unheeding : resolve action.headerId (action.prepend ++ inner) ∉ [.tcp, .udp, .icmp6] := by
    rw [known, isID]
    rcases version with ⟨-, rfl, -⟩ | ⟨-, rfl, -⟩ <;> decide
  obtain ⟨packet', isClone, ⟨out, after'⟩, isFrame', isOut⟩ :=
    clone_carried sound isFrame carried layout unheeding order spare
  refine ⟨inner, after, packet', out, after', isFrame, ?_, isFrame', ?_⟩
  · rw [applyAll, Packet.reparse, isClone]
    rfl
  · rw [show out = _ from isOut, gue_settled inTunnel]
    rcases version with ⟨isV4, rfl, size, -⟩ | ⟨isV6, rfl, size⟩
    · rw [isV4]
      exact counts_iff4 size isTemplate
    · rw [isV6]
      exact counts_iff6 size isTemplate

def serializeRaw : IPLayer → UDPLayer → Except String Bytes
  | .ipv4 version ihl protocol src dst, udp =>
    if src.length = 4 ∧ dst.length = 4 then
      .ok (octetsOf 1 (version * 16 + ihl) ++ List.replicate 8 0 ++ octetsOf 1 protocol ++ [0, 0] ++
        src ++ dst ++ udp.bytes)
    else .error "invalid IPv4 address"
  | .ipv6 version nextHeader src dst, udp =>
    if src.length = 16 ∧ dst.length = 16 then
      .ok (octetsOf 1 (version * 16) ++ List.replicate 5 0 ++ octetsOf 1 nextHeader ++ [0] ++ src ++
        dst ++ udp.bytes)
    else .error "invalid IPv6 address"

theorem serializeRaw_serializes : Serializes serializeRaw where
  ipv4 := by
    intro version ihl protocol src dst udp bytes isOk
    rw [serializeRaw] at isOk
    split at isOk
    · rename_i sizes
      cases isOk
      exact ⟨src, dst, sizes.1, sizes.2, rfl⟩
    · cases isOk
  ipv6 := by
    intro version nextHeader src dst udp bytes isOk
    rw [serializeRaw] at isOk
    split at isOk
    · rename_i sizes
      cases isOk
      exact ⟨src, dst, sizes.1, sizes.2, rfl⟩
    · cases isOk

def toPeer : GUE := ⟨false, [10, 0, 0, 1], [10, 0, 0, 2], 6080⟩

theorem gue_lengths_toPeer :
    ∃ packet actions, newPacket 3 .opaqueData [1, 2, 3] [] = .ok packet ∧
      gueActions serializeRaw toPeer = .ok actions ∧
      ∃ inner after packet' out after', packet.frame = .ok (inner, after) ∧
        applyAll .id [] actions packet = .ok packet' ∧ packet'.frame = .ok (out, after') ∧
        (CountsInner false out inner.length ↔ inner.length = 26) := by
  obtain ⟨packet, parsed⟩ : ∃ packet, newPacket 3 .opaqueData [1, 2, 3] [] = .ok packet := ⟨_, rfl⟩
  obtain ⟨actions, isOk⟩ : ∃ actions, gueActions serializeRaw toPeer = .ok actions := ⟨_, rfl⟩
  exact ⟨packet, actions, parsed, isOk,
    gue_lengths_iff serializeRaw_serializes isOk (Packet.newPacket_sound parsed) .id []⟩

theorem gue_miscounts :
    (do
      let packet ← newPacket 3 .opaqueData [1, 2, 3] []
      match gueActions serializeRaw toPeer with
      | .error message => .error message
      | .ok actions =>
        let packet ← applyAll .id [] actions packet
        let (out, _) ← packet.frame
        return (out.length, slice out 24 2, decide (CountsInner false out 3))) =
      Outcome.ok (31, [0, 34], false) := by
  decide +kernel

end Result

end Frames

end Lemming.Dplanerc
