import Lemming.Protocol.Emission

set_option autoImplicit false

namespace Lemming.Protocol

open Shared Lemming.Packet

def announced (type : Bytes) : HeaderId :=
  (nextHeader.lookup (octetsValue type)).getD .opaqueData

theorem announced_unheeding (type : Bytes) : announced type ∉ [.tcp, .udp, .icmp6] := by
  have known : ∀ entry ∈ nextHeader, entry.2 ∉ [.tcp, .udp, .icmp6] := by decide
  rw [announced]
  cases found : nextHeader.lookup (octetsValue type) with
  | none => decide
  | some id => exact known _ (lookup_entry found)

def tagSize : HeaderId → Nat
  | .ethernetVlan => 4
  | .ethernet1Q => 8
  | _ => 0

structure Laid (heap : Heap UInt8) (eth : Ethernet Slice) (header : Bytes) (off : Nat)
    (descs : List (Desc Bytes)) : Prop where
  inside : eth.header.Inside heap
  holds : eth.header.get heap = header
  tags : newEthernet (etherType header) = (eth.toEthernetTags, eth.header.len)
  fresh : ∀ desc ∈ descs, desc.Fresh
  inRest : (part off (Desc.bytes descs).length).Inside heap
  stored : (part off (Desc.bytes descs).length).get heap = Desc.bytes descs
  apart : eth.header.Apart (part off (Desc.bytes descs).length)
  path : ∃ frame tail, packetFormat.Path (announced (slice header eth.next 2)) frame
    (layersOf descs) .none tail

structure Framed (packet : Packet) (eth : Ethernet Slice) (header : Bytes) (off : Nat)
    (descs : List (Desc Bytes)) : Prop extends Laid packet.heap eth header off descs where
  headers : ∃ md dirty dirty', packet.headers =
    ⟨.packet, .metadata md, dirty⟩ :: ⟨.l2, .ethernet eth, dirty'⟩ :: Desc.placeAll off descs

section Writing

variable {heap heap' : Heap UInt8} {s : Slice}

theorem New.put (made : New heap [s] heap') (front old back new : Bytes)
    (holds : s.get heap' = front ++ old ++ back) (same : new.length = old.length) :
    New heap [s] ((s.sub front.length new.length).set heap' new) ∧
      s.get ((s.sub front.length new.length).set heap' new) = front ++ new ++ back := by
  have inside := (made.2 s List.mem_cons_self).1
  have length := Slice.get_length inside
  rw [holds, List.length_append, List.length_append] at length
  have fits : front.length + new.length ≤ s.len := by omega
  refine ⟨made.write List.mem_cons_self (.set List.mem_cons_self (Slice.covers_sub fits)
    ((Slice.covers_sub fits).inside inside) rfl), ?_⟩
  rw [Slice.get_set_sub inside fits rfl, holds, overwrite]
  simp [same]

theorem octets_8100 : octetsOf 2 0x8100 = [0x81, 0] := by decide

theorem octets_9100 : octetsOf 2 0x9100 = [0x91, 0] := by decide

theorem blankEthernet_tagged (heap : Heap UInt8) {id : HeaderId}
    (isTag : id = .ethernetVlan ∨ id = .ethernet1Q) :
    ∃ heap' eth tag, blankEthernet heap id = some (.ok (heap', eth)) ∧ New heap [eth.header] heap' ∧
      eth.id = id ∧
      newEthernet (octetsValue (slice tag 0 2)) = (eth.toEthernetTags, eth.header.len) ∧
      eth.next = 12 + tag.length ∧ 2 ≤ tag.length ∧
      eth.header.get heap' = List.replicate 12 0 ++ tag ++ [0, 0] := by
  have allocated (n : Nat) : (Slice.alloc heap (List.replicate n 0)).2.len = n := by
    simp [Slice.alloc]
  rcases isTag with rfl | rfl
  · obtain ⟨made, holds⟩ := (New.alloc heap (List.replicate 18 0)).put (List.replicate 12 0) [0, 0]
      [0, 0, 0, 0] [0x81, 0] (Slice.get_alloc_new _) rfl
    refine ⟨_, { next := 16, vlans := [14], id := .ethernetVlan, header := _ }, [0x81, 0, 0, 0], ?_,
      made, rfl, ?_, rfl, by decide, holds⟩
    · simp [blankEthernet, newEthernet, Header.setValue, octets_8100]
      rfl
    · rw [show octetsValue (slice [0x81, 0, 0, 0] 0 2) = 0x8100 by decide, allocated]
      rfl
  · obtain ⟨made, holds⟩ := (New.alloc heap (List.replicate 22 0)).put (List.replicate 12 0) [0, 0]
      (List.replicate 8 0) [0x91, 0] (Slice.get_alloc_new _) rfl
    obtain ⟨made, holds⟩ := made.put (List.replicate 12 0 ++ [0x91, 0, 0, 0]) [0, 0] [0, 0, 0, 0]
      [0x81, 0] holds rfl
    refine ⟨_, { next := 20, vlans := [14, 18], id := .ethernet1Q, header := _ },
      [0x91, 0, 0, 0, 0x81, 0, 0, 0], ?_, made, rfl, ?_, rfl, by decide, holds⟩
    · simp [blankEthernet, newEthernet, Header.setValue, octets_8100, octets_9100]
      rfl
    · rw [show octetsValue (slice [0x91, 0, 0, 0, 0x81, 0, 0, 0] 0 2) = 0x9100 by decide, allocated]
      rfl

end Writing

theorem Ethernet.retag_len {heap heap' : Heap UInt8} {eth eth' : Ethernet Slice} {next : Nat}
    (isOk : eth.retag heap next = .ok (heap', eth')) : eth'.header.len = (newEthernet next).2 := by
  simp only [Ethernet.retag, Slice.reslice] at isOk
  split at isOk
  · cases isOk
  · rename_i header cut
    obtain ⟨heap₁, -, same⟩ := Outcome.bind_eq_ok.mp isOk
    cases same
    split at cut
    · cases cut
      rfl
    · cases cut

section

variable {heap heap' : Heap UInt8} {packet : Packet} {eth eth' : Ethernet Slice}
  {header header' : Bytes} {off : Nat} {descs : List (Desc Bytes)}

namespace Laid

section

variable (laid : Laid heap eth header off descs)
include laid

theorem length : header.length = eth.header.len := by
  rw [← laid.holds, Slice.get_length laid.inside]

theorem shaped : (Handler.ethernet eth).Shaped Slice.len :=
  ⟨_, laid.tags⟩

theorem next_fits :
    eth.next + 2 = header.length ∧ 14 ≤ header.length := by
  have fits := newEthernet_next (etherType header)
  rw [laid.tags] at fits
  rw [laid.length]
  exact fits

theorem next_eq : eth.next = 12 + tagSize eth.id := by
  have size (type : Nat) : (newEthernet type).1.next = 12 + tagSize (newEthernet type).1.id := by
    unfold newEthernet
    split
    · rfl
    split <;> rfl
  have here := size (etherType header)
  rwa [laid.tags] at here

theorem type_eq :
    slice header eth.next 2 = header.drop eth.next :=
  List.take_of_length_le (by rw [List.length_drop, ← laid.next_fits.1]; omega)

theorem untagged (isID : eth.id = .ethernet) :
    octetsValue (slice header eth.next 2) ∉ [0x8100, 0x9100] := by
  have isType : octetsValue (slice header eth.next 2) = etherType header := by
    rw [laid.next_eq, isID]
    rfl
  have isTags := congrArg (fun tags => tags.1.id) laid.tags
  rw [isType]
  simp only [isID] at isTags
  intro tagged
  simp only [List.mem_cons, List.not_mem_nil, or_false] at tagged
  rcases tagged with type | type <;> rw [type] at isTags <;> cases isTags

theorem follows :
    follow eth.id header = announced (slice header eth.next 2) := by
  have isID := newEthernet_id (etherType header)
  rw [laid.tags] at isID
  rcases isID with isID | isID | isID <;> rw [show eth.id = _ from isID] <;>
    simp only [follow, laid.tags, announced]

theorem exchange {written : List Slice}
    (only : heap.Only written heap')
    (spared : ∀ s ∈ written, s.Apart (part off (Desc.bytes descs).length))
    (inside : eth'.header.Inside heap') (holds : eth'.header.get heap' = header')
    (tags : newEthernet (etherType header') = (eth'.toEthernetTags, eth'.header.len))
    (apart : eth'.header.Apart (part off (Desc.bytes descs).length))
    (sameType : slice header' eth'.next 2 = slice header eth.next 2) :
    Laid heap' eth' header' off descs where
  inside := inside
  holds := holds
  tags := tags
  fresh := laid.fresh
  inRest := laid.inRest.grown only.1
  stored := (only.2 _ laid.inRest spared).trans laid.stored
  apart := apart
  path := by
    rw [sameType]
    exact laid.path

theorem rebuilt (md : Metadata) (dirty dirty' : Bool) :
    ∃ md', Packet.rebuildHeaders heap [⟨.packet, .metadata md, dirty⟩]
        (⟨.l2, .ethernet eth, dirty'⟩ :: Desc.placeAll off descs) =
      .ok (heap, ⟨.packet, .metadata md', dirty⟩ :: ⟨.l2, .ethernet eth, dirty'⟩ ::
        Desc.placeAll off descs) := by
  have inside : Desc.Inside heap (⟨.l2, .ethernet eth, dirty'⟩ :: Desc.placeAll off descs) := by
    rintro desc (_ | ⟨_, mem⟩)
    · rintro s (_ | ⟨_, ⟨⟩⟩)
      exact laid.inside
    · exact Desc.inside_iff.mpr (fun s isSlice => (Desc.placeAll_covered.1 s isSlice).inside
        laid.inRest) desc mem
  have compact : Desc.Compact (⟨.l2, .ethernet eth, dirty'⟩ :: Desc.placeAll off descs) := by
    rintro desc (_ | ⟨_, mem⟩)
    · trivial
    · exact Desc.placeAll_compact desc mem
  rw [Packet.rebuildHeaders, Handler.rebuild]
  simp only [Desc.payloadLength_compact inside compact, Outcome.ok_bind, Packet.rebuildHeaders]
  exact ⟨_, rfl⟩

theorem type_octets :
    octetsOf 2 (octetsValue (slice header eth.next 2)) = slice header eth.next 2 := by
  have back := octetsOf_octetsValue (slice header eth.next 2)
  rwa [slice_length laid.next_fits.1.le] at back

theorem remove_eq (isTag : eth.id = .ethernetVlan ∨ eth.id = .ethernet1Q) :
    eth.id.group = .l2 ∧
      eth.remove heap eth.id = eth.retag heap (octetsValue (slice header eth.next 2)) := by
  have isType := Ethernet.ethertype_ok laid.inside laid.shaped
  rw [laid.holds] at isType
  rcases isTag with tag | tag <;> rw [tag] <;>
    simp only [Ethernet.remove, tag, ne_eq, not_true_eq_false, if_false, isType, Outcome.ok_bind,
      and_true] <;> rfl

theorem retag
    (plain : octetsValue (slice header eth.next 2) ∉ [0x8100, 0x9100]) :
    ∃ heap' eth', eth.retag heap (octetsValue (slice header eth.next 2)) = .ok (heap', eth') ∧
      eth'.id = .ethernet ∧ Laid heap' eth' (header.take 12 ++ slice header eth.next 2) off descs := by
  obtain ⟨fits, large⟩ := laid.next_fits
  have isType := laid.type_octets
  have length : (slice header eth.next 2).length = 2 := slice_length fits.le
  rw [laid.length] at large
  have isTags : newEthernet (octetsValue (slice header eth.next 2)) = (⟨12, [], .ethernet⟩, 14) := by
    simp only [List.mem_cons, List.not_mem_nil, or_false, not_or] at plain
    rw [newEthernet, if_neg plain.1, if_neg plain.2]
  have room : eth.header.off + 14 ≤ (heap.array eth.header.array).length :=
    (Nat.add_le_add_left large _).trans laid.inside.2
  have inCut : (eth.header.sub 0 14).Inside heap := (Slice.covers_sub large).inside laid.inside
  have inType : ((eth.header.sub 0 14).sub 12 2).Inside heap :=
    (Slice.covers_sub (Nat.le_refl 14)).inside inCut
  have only : heap.Only [eth.header.sub 0 14]
      (((eth.header.sub 0 14).sub 12 2).set heap (slice header eth.next 2)) :=
    .set List.mem_cons_self (Slice.covers_sub (Nat.le_refl 14)) inType length
  have apart : (eth.header.sub 0 14).Apart (part off (Desc.bytes descs).length) :=
    (Slice.covers_sub large).apart laid.apart
  have front : (header.take 12).length = 12 := by
    rw [List.length_take, laid.length]
    omega
  have isSlice : slice (header.take 12 ++ slice header eth.next 2) 12 2 = slice header eth.next 2 := by
    rw [slice, List.drop_left' front, List.take_of_length_le length.le]
  refine ⟨_, { next := 12, vlans := [], id := .ethernet, header := eth.header.sub 0 14 }, ?_, rfl,
    laid.exchange only ?_ (inCut.grown only.1) ?_ ?_ apart isSlice⟩
  · simp only [Ethernet.retag, isTags, Slice.reslice, if_pos room, Header.setValue, Nat.lt_irrefl,
      if_false, isType]
    rfl
  · intro s mem
    rw [List.mem_singleton.mp mem]
    exact apart
  · rw [Slice.get_set_sub inCut (Nat.le_refl 14) length, Slice.get_sub large, laid.holds, overwrite,
      slice, List.drop_zero, List.take_take, length, List.drop_take]
    simp
  · rw [etherType, isSlice, isTags]
    rfl

theorem modify (untagged : eth.id = .ethernet)
    {id : HeaderId} (isTag : id = .ethernetVlan ∨ id = .ethernet1Q) :
    ∃ heap' eth' header', eth.modify heap id = .ok (heap', eth') ∧ eth'.id = id ∧
      Laid heap' eth' header' off descs ∧ header'.take 12 = header.take 12 ∧
      slice header' eth'.next 2 = slice header eth.next 2 := by
  obtain ⟨fits, large⟩ := laid.next_fits
  obtain ⟨heap₁, tagged, tag, isBlank, made, isID, isTags, isNext, large', holds⟩ :=
    blankEthernet_tagged heap isTag
  have isType := Ethernet.ethertype_ok laid.inside laid.shaped
  rw [laid.holds] at isType
  have length : (slice header eth.next 2).length = 2 := slice_length fits.le
  have inSrc : (slice header 6 6).length = 6 := slice_length (by omega)
  have inDst : (slice header 0 6).length = 6 := slice_length (by omega)
  have front : slice header 0 6 ++ slice header 6 6 = header.take 12 := List.take_add.symm
  have isFront : (header.take 12).length = 12 := by
    rw [List.length_take]
    omega
  have isNext' : (List.replicate 12 (0 : UInt8) ++ tag).length = tagged.next := by
    rw [isNext, List.length_append, List.length_replicate]
  -- The ethertype, then the two addresses are written over the zeroes.
  obtain ⟨made₂, holds₂⟩ := made.put (List.replicate 12 0 ++ tag) [0, 0] [] (slice header eth.next 2)
    (by rw [holds, List.append_nil]) length
  rw [isNext', length] at made₂ holds₂
  obtain ⟨made₃, holds₃⟩ := made₂.put (List.replicate 6 0) (List.replicate 6 0)
    (tag ++ slice header eth.next 2) (slice header 6 6)
    (by rw [holds₂, List.append_nil, List.append_assoc]; rfl) inSrc
  rw [List.length_replicate, inSrc] at made₃ holds₃
  obtain ⟨made₄, holds₄⟩ := made₃.put [] (List.replicate 6 0)
    (slice header 6 6 ++ (tag ++ slice header eth.next 2)) (slice header 0 6)
    (by rw [holds₃, List.nil_append, List.append_assoc]) inDst
  rw [List.nil_append, ← List.append_assoc, front] at holds₄
  rw [inDst] at made₄ holds₄
  have inTagged := (made₄.2 _ List.mem_cons_self).1
  have isLen := Slice.get_length inTagged
  rw [holds₄, List.length_append, List.length_append, isFront, length] at isLen
  have isSlice : slice (header.take 12 ++ (tag ++ slice header eth.next 2)) 12 2 = slice tag 0 2 := by
    rw [slice, List.drop_left' isFront, List.take_append_of_le_length large']
    rfl
  have sameType : slice (header.take 12 ++ (tag ++ slice header eth.next 2)) tagged.next 2 =
      slice header eth.next 2 := by
    rw [← List.append_assoc, slice, isNext, List.drop_left' (by simp [isFront]),
      List.take_of_length_le length.le]
  refine ⟨_, tagged, _, ?_, isID, laid.exchange made₄.1 (by rintro s ⟨⟩) inTagged holds₄ ?_ ?_ sameType, ?_,
    sameType⟩
  · have notPlain : ¬ id = .ethernet := by
      rcases isTag with rfl | rfl <;> rintro ⟨⟩
    have fitsNext : ¬ tagged.header.len < tagged.next + 2 := by omega
    have inAddress {heap' : Heap UInt8} (made : New heap [tagged.header] heap') {at' : Nat}
        (low : at' ≤ 6) : ((tagged.header.sub at' 6).get heap').length = 6 :=
      Slice.get_length ((Slice.covers_sub (by omega)).inside (made.2 _ List.mem_cons_self).1)
    have kept {address : Bytes} (six : address.length = 6) : resize address 6 = address := by
      simp [resize, six]
    simp only [Ethernet.modify, untagged, ne_eq, not_true_eq_false, if_false, isType, Outcome.ok_bind,
      notPlain, isBlank, Header.setValue, fitsNext, laid.type_octets, FieldRef.update, Field.set,
      laid.holds, field_inside (show 6 + 6 ≤ header.length by omega),
      field_inside (show 0 + 6 ≤ header.length by omega), true_or, or_true, if_true, pure,
      inAddress made₂ (Nat.le_refl 6), inAddress made₃ (Nat.zero_le 6), kept inSrc, kept inDst]
    rfl
  · rw [etherType, isSlice, isTags]
  · exact Or.inl (Nat.ne_of_gt (laid.inRest.1.trans_le (made₄.2 _ List.mem_cons_self).2))
  · rw [List.take_left' isFront]

theorem vlans_before {tag : Nat} (mem : tag ∈ eth.vlans) :
    14 ≤ tag ∧ tag + 2 ≤ eth.next := by
  have before : ∀ tag ∈ (newEthernet (etherType header)).1.vlans,
      14 ≤ tag ∧ tag + 2 ≤ (newEthernet (etherType header)).1.next := by
    unfold newEthernet
    split
    · simp
    split <;> simp
  rw [laid.tags] at before
  exact before tag mem

end

theorem setBits_two {bitpos bitcount : UInt64} (low : (bitpos + bitcount - 1).toNat < 16)
    {field : Bytes} (two : field.length = 2) (bits : Nat) :
    (Field.setBits bitpos bitcount bits field).Yields fun value => value.length = 2 := by
  have numeric : Field.Numeric field := Or.inr (Or.inl two)
  rw [Field.setBits, if_neg (by omega), if_pos numeric]
  exact .pure (by rw [octetsOf_length, two])

theorem updateField (laid : Laid heap eth header off descs) {id : FieldID} {arg : Bytes}
    (named : id.isUDF = false) (isField : id.num = vlanTagField ∨ id.num = vlanPriorityField)
    (two : arg.length = 2) :
    (eth.updateField heap id .set arg).Allows fun heap' => ∃ header',
      Laid heap' eth header' off descs ∧ header'.take 12 = header.take 12 ∧
        slice header' eth.next 2 = slice header eth.next 2 := by
  have isBits : Field.bigEndian 2 arg = .ok (octetsValue arg) := by
    rw [Field.bigEndian, if_neg (by omega), List.take_of_length_le two.le]
  cases isRef : eth.field id with
  | none =>
    rw [Ethernet.updateField, isRef]
    exact Or.inr ⟨_, rfl⟩
  | some ref =>
    have place : ref = .copy [0, 0] ∨ ∃ tag ∈ eth.vlans, ref = .part tag 2 := by
      rw [Ethernet.field, if_pos ⟨named, isField⟩] at isRef
      dsimp only at isRef
      split at isRef
      · rename_i tag found
        rw [FieldRef.within] at isRef
        split at isRef
        · cases isRef
        · cases isRef
          exact Or.inr ⟨tag, List.mem_of_getElem? found, rfl⟩
      · split at isRef
        · cases isRef
          exact Or.inl rfl
        · cases isRef
    have changed (bitpos bitcount : UInt64) (low : (bitpos + bitcount - 1).toNat < 16) :
        (ref.update heap eth.header (Field.setBits bitpos bitcount (octetsValue arg))).Yields
          fun heap' => ∃ header', Laid heap' eth header' off descs ∧
            header'.take 12 = header.take 12 ∧ slice header' eth.next 2 = slice header eth.next 2 := by
      rcases place with rfl | ⟨tag, mem, rfl⟩
      · exact (setBits_two low rfl _).bind fun _ _ => .pure ⟨header, laid, rfl, rfl⟩
      · obtain ⟨behind, before⟩ := laid.vlans_before mem
        have fits : tag + 2 ≤ eth.header.len := by
          have := laid.next_fits.1
          rw [← laid.length]
          omega
        have inTag := (Slice.covers_sub fits).inside laid.inside
        refine (setBits_two low (Slice.get_length inTag) _).bind fun word isWord => .pure ?_
        have only : heap.Only [eth.header] ((eth.header.sub tag 2).set heap word) :=
          .set List.mem_cons_self (Slice.covers_sub fits) inTag isWord
        have holds := Slice.get_set_sub laid.inside fits isWord
        rw [laid.holds] at holds
        have kept {other : Nat} (apart : other + 2 ≤ tag ∨ tag + 2 ≤ other) :
            slice (overwrite header tag word) other 2 = slice header other 2 :=
          slice_overwrite_apart (by rw [isWord, laid.length]; exact fits) (by rwa [isWord])
        refine ⟨_, laid.exchange only ?_ (laid.inside.grown only.1) holds ?_ laid.apart
          (kept (Or.inr before)), ?_, kept (Or.inr before)⟩
        · intro s isHeader
          rw [List.mem_singleton.mp isHeader]
          exact laid.apart
        · rw [etherType, kept (Or.inl behind)]
          exact laid.tags
        · rw [overwrite, List.append_assoc, List.take_append_of_le_length
            (by rw [List.length_take, laid.length]; omega), List.take_take, Nat.min_eq_left (by omega)]
    simp only [Ethernet.updateField, isRef, named, ne_eq, not_true_eq_false, if_false, isBits,
      Outcome.ok_bind, Bool.false_eq_true]
    rcases isField with isNum | isNum
    · rw [if_pos isNum]
      exact Or.inl (changed 0 12 (by decide))
    · rw [if_neg (by rw [isNum]; decide), if_pos isNum]
      exact Or.inl (changed 12 4 (by decide))

end Laid

namespace Framed

theorem slot_l2 {md : Metadata} {dirty dirty' : Bool} {below : List (Desc Slice)} :
    slot .l2 [] (⟨.packet, .metadata md, dirty⟩ :: ⟨.l2, .ethernet eth, dirty'⟩ :: below) =
      some ([⟨.packet, .metadata md, dirty⟩], ⟨.l2, .ethernet eth, dirty'⟩, below) :=
  rfl

theorem decap (framed : Framed packet eth header off descs)
    (isTag : eth.id = .ethernetVlan ∨ eth.id = .ethernet1Q)
    (plain : octetsValue (slice header eth.next 2) ∉ [0x8100, 0x9100]) :
    ∃ packet' eth', packet.decap eth.id = .ok packet' ∧ eth'.id = .ethernet ∧
      Framed packet' eth' (header.take 12 ++ slice header eth.next 2) off descs := by
  obtain ⟨md, dirty, dirty', isHeaders⟩ := framed.headers
  obtain ⟨heap', eth', retagged, isID, laid⟩ := framed.toLaid.retag plain
  obtain ⟨md', isRebuilt⟩ := laid.rebuilt md dirty true
  obtain ⟨known, removed⟩ := framed.remove_eq isTag
  have nonempty : ¬ (eth'.header.get heap').length = 0 := by
    have large := laid.next_fits.2
    rw [laid.holds]
    omega
  refine ⟨{ packet with heap := heap', headers := _ }, eth', ?_, isID, laid, md', dirty, true, rfl⟩
  simp only [Packet.decap, known, reduceCtorEq, if_false, isHeaders, slot_l2, Handler.remove, removed,
    retagged, Outcome.ok_bind, pure, Outcome.wrap_ok, Handler.header, nonempty, isRebuilt]

theorem encap (framed : Framed packet eth header off descs) (untagged : eth.id = .ethernet)
    {id : HeaderId} (isTag : id = .ethernetVlan ∨ id = .ethernet1Q) :
    ∃ packet' eth' header', packet.encap id = .ok packet' ∧ eth'.id = id ∧
      Framed packet' eth' header' off descs ∧ header'.take 12 = header.take 12 ∧
      slice header' eth'.next 2 = slice header eth.next 2 := by
  obtain ⟨md, dirty, dirty', isHeaders⟩ := framed.headers
  obtain ⟨heap', eth', header', modified, isID, laid, same⟩ := framed.toLaid.modify untagged isTag
  obtain ⟨md', isRebuilt⟩ := laid.rebuilt md dirty true
  have known : id.group = .l2 := by
    rcases isTag with rfl | rfl <;> rfl
  refine ⟨{ packet with heap := heap', headers := _ }, eth', header', ?_, isID,
    ⟨laid, md', dirty, true, rfl⟩, same⟩
  simp only [Packet.encap, known, reduceCtorEq, if_false, isHeaders, slot_l2, Handler.modify, modified,
    Outcome.ok_bind, pure, Outcome.wrap_ok, isRebuilt]

theorem frame (framed : Framed packet eth header off descs) :
    packet.frame.Yields fun (out, _) => out = header ++ flat (settle .none 0 (layersOf descs)) := by
  obtain ⟨md, dirty, dirty', isHeaders⟩ := framed.headers
  obtain ⟨frame, tail, path⟩ := framed.path
  have same : Handler.rebuildEthernet packet.heap (Desc.placeAll off descs) eth = .ok packet.heap := by
    refine rebuildEthernet_fresh framed.inside ?_ (payloadID_placed framed.fresh) (Or.inr ?_)
    · rw [framed.holds]
      exact framed.tags
    · rw [framed.holds, framed.follows]
      exact (firstOf_path path).symm
  have above : ∀ desc ∈ [⟨.l2, .ethernet eth, dirty'⟩, ⟨.packet, .metadata md, dirty⟩],
      Desc.Sound desc := by
    rintro desc (_ | ⟨_, _ | ⟨_, ⟨⟩⟩⟩)
    · exact ⟨framed.shaped, rfl⟩
    · exact ⟨trivial, rfl⟩
  obtain ⟨⟨heap', headers, below'⟩, isRest, out⟩ := rebuildLoop_fresh
    (Desc.placeAll off descs).length (Nat.le_of_eq Desc.placeAll_length.symm) framed.fresh above
    (fun heeds => absurd heeds (announced_unheeding _)) framed.inRest framed.stored path
  simp only [Packet.frame, isHeaders, Desc.payload, List.length_cons, Desc.rebuildLoop,
    Handler.rebuild, same, Outcome.ok_bind, Handler.header, framed.holds, isRest, pure]
  refine ⟨_, rfl, ?_⟩
  rw [← out]
  rfl

theorem of_parsed {fuel : Nat} {start : HeaderId} {bytes spare : Bytes}
    (parsed : newPacket fuel start bytes spare = .ok packet)
    (isEthernet : resolve start bytes = .ethernet ∨ resolve start bytes = .ethernetVlan ∨
      resolve start bytes = .ethernet1Q) :
    packet.Sound ∧ ∃ eth header descs rest, eth.id = resolve start bytes ∧ bytes = header ++ rest ∧
      Framed packet eth header header.length descs := by
  obtain ⟨descs, tail, layout, fresh, covered⟩ := Packet.newPacket_ok parsed
  refine ⟨(fresh.sound covered).1, ?_⟩
  obtain ⟨rfl, -, freshAll⟩ := fresh
  generalize resolve start bytes = id at layout isEthernet ⊢
  have isFirst : id = firstOf .none (layersOf descs) := firstOf_path layout
  cases descs with
  | nil => rcases isEthernet with rfl | rfl | rfl <;> cases isFirst
  | cons desc below =>
    obtain ⟨nonempty, fits, isGroup, -⟩ := freshAll desc List.mem_cons_self
    obtain ⟨group, handler, dirty⟩ := desc
    obtain rfl : group = handler.group := isGroup
    cases handler with
    | metadata md => exact absurd rfl nonempty
    | ip linked headers =>
      cases headers with
      | nil => exact absurd rfl nonempty
      | cons ip inner => cases ip <;> rcases isEthernet with rfl | rfl | rfl <;> cases isFirst
    | ethernet eth =>
      obtain rfl : id = eth.id := isFirst
      have path : packetFormat.Path eth.id bytes ((eth.id, eth.header) :: layersOf below) .none tail :=
        layout
      cases path with
      | @header _ _ _ after _ _ reads onward =>
        have outside : ¬ eth.id.InTunnel := by
          rcases isEthernet with isID | isID | isID <;> rw [isID] <;> decide
        have whole : after = Desc.bytes below ++ tail := List.append_cancel_left
          (covered.trans (List.append_assoc eth.header (Desc.bytes below) tail))
        subst whole
        have follows : packetFormat.next eth.id eth.header (Desc.bytes below ++ tail) =
            announced (slice eth.header eth.next 2) := by
          have isTags : newEthernet (etherType eth.header) = (eth.toEthernetTags, eth.header.length) :=
            fits
          simp only [packetFormat, outside, false_and, if_false]
          rcases isEthernet with isID | isID | isID <;> rw [isID] <;>
            simp only [follow, isTags, announced]
        rw [follows] at onward
        have placed : Desc.placeAll 0 (⟨.l2, .ethernet eth, dirty⟩ :: below) =
            ⟨.l2, .ethernet { eth with header := part 0 eth.header.length }, dirty⟩ ::
              Desc.placeAll eth.header.length below := by
          simp [Desc.placeAll, Handler.place, Handler.bytes, part]
        refine ⟨{ eth with header := part 0 eth.header.length }, eth.header, below, _, rfl, rfl,
          { inside := ⟨Nat.zero_lt_one, ?_⟩, holds := ?_, tags := fits
            fresh := fun other mem => freshAll other (List.mem_cons_of_mem _ mem)
            inRest := ⟨Nat.zero_lt_one, ?_⟩, stored := ?_
            apart := Or.inr (Or.inl (Nat.zero_add _).le), path := ⟨_, tail, onward⟩
            headers := ⟨_, _, dirty, congrArg (metadataDesc _ :: ·) placed⟩ }⟩
        · simp [part, Heap.array]
        · simp [part, Slice.get, Heap.array, slice]
        · simp [part, Heap.array]
        · simp [part, Slice.get, Heap.array, slice]
    | _ => rcases isEthernet with rfl | rfl | rfl <;> cases isFirst

theorem update (framed : Framed packet eth header off descs) {id : FieldID} {arg : Bytes}
    (named : id.isUDF = false) (isField : id.num = vlanTagField ∨ id.num = vlanPriorityField)
    (two : arg.length = 2) :
    (packet.update id .set arg).Allows fun packet' => ∃ header',
      Framed packet' eth header' off descs ∧ header'.take 12 = header.take 12 ∧
        slice header' eth.next 2 = slice header eth.next 2 := by
  obtain ⟨md, dirty, dirty', isHeaders⟩ := framed.headers
  have isGroup : fieldGroup id.num = some .l2 := by
    rcases isField with isNum | isNum <;> rw [isNum] <;> decide
  simp only [Packet.update, Packet.fieldDesc, named, Bool.false_eq_true, if_false, isGroup,
    Outcome.ok_bind, Option.bind_some, isHeaders, slot_l2, Handler.updateField]
  rcases framed.toLaid.updateField named isField two with
    ⟨heap', isHeap, header', laid, same⟩ | ⟨message, refused⟩
  · rw [isHeap]
    exact Or.inl (.pure ⟨header', ⟨laid, md, dirty, _, rfl⟩, same⟩)
  · rw [refused]
    exact Or.inr ⟨_, rfl⟩

theorem decap_size (framed : Framed packet eth header off descs)
    (isTag : eth.id = .ethernetVlan ∨ eth.id = .ethernet1Q)
    (another : octetsValue (slice header eth.next 2) ∈ [0x8100, 0x9100]) {packet' : Packet}
    (isOk : packet.decap eth.id = .ok packet') : packet'.size ≠ 14 + (Desc.bytes descs).length := by
  obtain ⟨md, dirty, dirty', isHeaders⟩ := framed.headers
  obtain ⟨above, desc, below, heap₁, handler₁, found, removed, rebuilt⟩ := Packet.decap_cases isOk
  obtain ⟨known, isRetag⟩ := framed.remove_eq isTag
  rw [known, isHeaders, slot_l2] at found
  cases found
  obtain ⟨⟨heap', eth'⟩, retagged, same⟩ := Outcome.bind_eq_ok.mp removed
  cases same
  rw [isRetag] at retagged
  have isLen : eth'.header.len = 18 ∨ eth'.header.len = 22 := by
    rw [Ethernet.retag_len retagged]
    simp only [List.mem_cons, List.not_mem_nil, or_false] at another
    rcases another with type | type <;> rw [type] <;> decide
  rw [Packet.rebuildHeaders, Handler.rebuild] at rebuilt
  have isLeft := (Prod.mk.inj (Outcome.ok.inj rebuilt)).2
  have rest : Desc.size (Desc.placeAll off descs) = (Desc.bytes descs).length := Desc.placeAll_size
  simp only [Packet.size, ← isLeft]
  split <;> simp only [Desc.size, List.map_cons, List.sum_cons, Handler.size] at rest ⊢ <;> omega

end Framed

end

section Parsed

variable {fuel : Nat} {start id : HeaderId} {bytes spare : Bytes} {packet packet' : Packet}

theorem decap_strips_tags_iff (parsed : newPacket fuel start bytes spare = .ok packet)
    (isTag : id = .ethernetVlan ∨ id = .ethernet1Q) (tagged : resolve start bytes = id)
    (isOk : packet.decap id = .ok packet') :
    ∃ out after, packet.frame = .ok (out, after) ∧
      ((∃ after', packet'.frame = .ok (out.take 12 ++ out.drop (12 + tagSize id), after')) ↔
        octetsValue (slice bytes (12 + tagSize id) 2) ∉ [0x8100, 0x9100]) := by
  have isEthernet : resolve start bytes = .ethernet ∨ resolve start bytes = .ethernetVlan ∨
      resolve start bytes = .ethernet1Q := by
    rw [tagged]
    exact Or.inr isTag
  obtain ⟨sound, eth, header, descs, rest, isID, rfl, framed⟩ := Framed.of_parsed parsed isEthernet
  obtain rfl : eth.id = id := isID.trans tagged
  obtain ⟨⟨out, after⟩, isFrame, rfl⟩ := framed.frame
  obtain ⟨fits, large⟩ := framed.next_fits
  refine ⟨_, after, isFrame, ?_⟩
  rw [← framed.next_eq, slice_append fits.le, List.take_append_of_le_length (by omega),
    List.drop_append_of_le_length (by omega)]
  constructor
  · rintro ⟨after', isStripped⟩ another
    obtain ⟨⟨stripped, _⟩, isFrame', size, -⟩ :=
      Packet.frame_yields (Packet.decap_spliced sound isOk).sound
    refine framed.decap_size isTag another isOk (size.symm.trans ?_)
    obtain ⟨frame, tail, path⟩ := framed.path
    have total : (flat (layersOf descs)).length = (Desc.bytes descs).length :=
      congrArg List.length (Desc.layersOf_bytes descs)
    cases isFrame'.symm.trans isStripped
    rw [List.length_append, List.length_append, List.length_take, List.length_drop,
      settle_length (path_large path), total]
    omega
  · intro plain
    obtain ⟨packet'', eth', isDecap, -, framed'⟩ := framed.decap isTag plain
    obtain rfl : packet'' = packet' := Outcome.ok.inj (isDecap.symm.trans isOk)
    obtain ⟨⟨out, after'⟩, isFrame', rfl⟩ := framed'.frame
    exact ⟨after', by rw [isFrame', framed.type_eq, List.append_assoc]⟩

def single : Bytes :=
  [1, 1, 1, 1, 1, 1, 2, 2, 2, 2, 2, 2, 0x81, 0, 0, 5, 0, 7]

theorem decap_strips_tags_single :
    ∃ packet packet' out after, newPacket 6 .ethernet single [] = .ok packet ∧
      packet.decap .ethernetVlan = .ok packet' ∧ packet.frame = .ok (out, after) ∧
      ((∃ after', packet'.frame = .ok (out.take 12 ++ out.drop 16, after')) ↔
        octetsValue (slice single 16 2) ∉ [0x8100, 0x9100]) := by
  have runs : (do return (← (← newPacket 6 .ethernet single []).decap .ethernetVlan).headers.length) =
      Outcome.ok 3 := by decide +kernel
  obtain ⟨packet, parsed, runs⟩ := Outcome.bind_eq_ok.mp runs
  obtain ⟨packet', isOk, -⟩ := Outcome.bind_eq_ok.mp runs
  obtain ⟨out, after, isFrame, strips⟩ :=
    decap_strips_tags_iff parsed (Or.inl rfl) (by decide) isOk
  exact ⟨packet, packet', out, after, parsed, isOk, isFrame, strips⟩

theorem decap_keeps_stacked :
    (do
      let packet ← newPacket 6 .ethernet (single.take 16 ++ [0x81, 0, 0, 6, 0, 7]) []
      let (before, _) ← packet.frame
      let (after, _) ← (← packet.decap .ethernetVlan).frame
      return (before, after)) =
    Outcome.ok (single.take 16 ++ [0x81, 0, 0, 6, 0, 7], single.take 16 ++ [0x81, 0, 0, 6, 0, 7]) := by
  decide +kernel

def Packet.setAll : List (FieldID × Bytes) → Packet → Outcome Packet
  | [], packet => .ok packet
  | (id, arg) :: sets, packet =>
    match packet.update id .set arg with
    | .error _ => setAll sets packet
    | updated => do setAll sets (← updated)

theorem Framed.setAll {eth : Ethernet Slice} {off : Nat} {descs : List (Desc Bytes)}
    {sets : List (FieldID × Bytes)}
    (ofTags : ∀ set ∈ sets, set.1.isUDF = false ∧
      (set.1.num = vlanTagField ∨ set.1.num = vlanPriorityField) ∧ set.2.length = 2) :
    ∀ {packet : Packet} {header : Bytes}, Framed packet eth header off descs →
      (packet.setAll sets).Yields fun packet' => ∃ header', Framed packet' eth header' off descs ∧
        header'.take 12 = header.take 12 ∧ slice header' eth.next 2 = slice header eth.next 2 := by
  induction sets with
  | nil => exact fun framed => .pure ⟨_, framed, rfl, rfl⟩
  | cons set sets ih =>
    intro packet header framed
    obtain ⟨named, isField, two⟩ := ofTags set List.mem_cons_self
    have onward := @ih fun other mem => ofTags other (List.mem_cons_of_mem _ mem)
    rw [Packet.setAll]
    rcases framed.update named isField two with
      ⟨packet₁, isOk, header₁, framed₁, front, type⟩ | ⟨message, refused⟩
    · rw [isOk]
      refine (onward framed₁).imp fun packet' => ?_
      rintro ⟨header', framed', front', type'⟩
      exact ⟨header', framed', front'.trans front, type'.trans type⟩
    · rw [refused]
      exact onward framed

theorem push_pop_cancels (parsed : newPacket fuel start bytes spare = .ok packet)
    (untagged : resolve start bytes = .ethernet) (isTag : id = .ethernetVlan ∨ id = .ethernet1Q)
    (sets : List (FieldID × Bytes))
    (ofTags : ∀ set ∈ sets, set.1.isUDF = false ∧
      (set.1.num = vlanTagField ∨ set.1.num = vlanPriorityField) ∧ set.2.length = 2) :
    ∃ out pushed changed popped after after', packet.frame = .ok (out, after) ∧
      packet.encap id = .ok pushed ∧ pushed.setAll sets = .ok changed ∧
      changed.decap id = .ok popped ∧ popped.frame = .ok (out, after') := by
  obtain ⟨-, eth, header, descs, rest, isID, rfl, framed⟩ := Framed.of_parsed parsed (Or.inl untagged)
  rw [untagged] at isID
  obtain ⟨⟨out, after⟩, isFrame, rfl⟩ := framed.frame
  obtain ⟨pushed, eth₁, header₁, isPushed, rfl, framed₁, front₁, type₁⟩ := framed.encap isID isTag
  obtain ⟨changed, isChanged, header₂, framed₂, front₂, type₂⟩ := Framed.setAll ofTags framed₁
  have sameType := type₂.trans type₁
  have plain : octetsValue (slice header₂ eth₁.next 2) ∉ [0x8100, 0x9100] := by
    rw [sameType]
    exact framed.untagged isID
  obtain ⟨popped, eth₃, isPopped, -, framed₃⟩ := framed₂.decap isTag plain
  obtain ⟨⟨out, after'⟩, isFrame', rfl⟩ := framed₃.frame
  refine ⟨_, pushed, changed, popped, after, after', isFrame, isPushed, isChanged, isPopped, ?_⟩
  have whole : header₂.take 12 ++ slice header₂ eth₁.next 2 = header := by
    rw [front₂, front₁, sameType, framed.type_eq, framed.next_eq, isID]
    exact List.take_append_drop 12 header
  rw [isFrame', whole]

theorem push_pop_cancels_empty :
    ∃ packet out pushed changed popped after after',
      newPacket 6 .ethernet (single.take 12 ++ [0, 7]) [] = .ok packet ∧
      packet.frame = .ok (out, after) ∧ packet.encap .ethernet1Q = .ok pushed ∧
      pushed.setAll [({ num := vlanTagField }, [0xff, 0xff])] = .ok changed ∧
      changed.decap .ethernet1Q = .ok popped ∧ popped.frame = .ok (out, after') := by
  have runs : (do return (← newPacket 6 .ethernet (single.take 12 ++ [0, 7]) []).headers.length) =
      Outcome.ok 3 := by decide +kernel
  obtain ⟨packet, parsed, -⟩ := Outcome.bind_eq_ok.mp runs
  obtain ⟨out, pushed, changed, popped, after, after', cancels⟩ :=
    push_pop_cancels parsed (by decide) (Or.inr rfl) [({ num := vlanTagField }, [0xff, 0xff])]
      (by simp)
  exact ⟨packet, out, pushed, changed, popped, after, after', parsed, cancels⟩

end Parsed

end Lemming.Protocol
