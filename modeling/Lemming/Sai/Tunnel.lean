import Lemming.Protocol.Parse
import Lemming.Sai.Route

set_option autoImplicit false

namespace Lemming.Sai

open Shared Packet Lemming.Flow PacketFieldNum

inductive TunnelTermType where
  | p2p
  | p2mp
  | mp2p
  | mp2mp
  -- Zero, which is the one for an unspecified type, or a number that has no name.
  | unnamed (number : Int32)
deriving DecidableEq

structure TunnelTermRequest where
  type : TunnelTermType
  srcIp : Option Bytes
  dstIp : Option Bytes
  srcIpMask : Option Bytes
  dstIpMask : Option Bytes

-- The destination of MP2MP is made from the source address.
def termFieldsFromReq (req : TunnelTermRequest) :
    Outcome (List PacketFieldMaskedBytes × Protocol.HeaderId) :=
  let isV4 := (req.srcIp.getD []).length = 4 ∨ (req.dstIp.getD []).length = 4
  let zeroIP := List.replicate (if isV4 then 4 else 16) 0
  let exactMask := List.replicate (if isV4 then 4 else 16) 0xFF
  let headerID := if isV4 then .ip4 else .ip6
  let srcIP := req.srcIp.getD zeroIP
  let dstIP := req.dstIp.getD zeroIP
  let srcIPMask := req.srcIpMask.getD zeroIP
  let dstIPMask := req.dstIpMask.getD zeroIP
  match req.type with
  | .p2p => .ok ([withBytes ipAddrSrc srcIP exactMask, withBytes ipAddrDst dstIP exactMask], headerID)
  | .p2mp =>
    .ok ([withBytes ipAddrSrc srcIP exactMask, withBytes ipAddrDst dstIP dstIPMask], headerID)
  | .mp2p =>
    .ok ([withBytes ipAddrSrc srcIP srcIPMask, withBytes ipAddrDst dstIP exactMask], headerID)
  | .mp2mp =>
    .ok ([withBytes ipAddrSrc srcIP srcIPMask, withBytes ipAddrDst srcIP dstIPMask], headerID)
  | .unnamed number => .error ("invalid tunnel type: " ++
      if number = 0 then "TUNNEL_TERM_TABLE_ENTRY_TYPE_UNSPECIFIED" else toString number)

def tunnelTermDesc (req : TunnelTermRequest) : Outcome Desc := do
  let (fields, _) ← termFieldsFromReq req
  newDesc fields []

def masked (bytes mask : Bytes) : Bytes := List.zipWith (· &&& ·) bytes mask

-- No mask is an exact comparison.
def Same (a b : Bytes) : Option Bytes → Prop
  | none => a = b
  | some mask => masked a mask = masked b mask

namespace TunnelTermType

def sourceMask (mask : Bytes) : TunnelTermType → Option Bytes
  | .p2p | .p2mp => none
  | _ => some mask

def destinationMask (mask : Bytes) : TunnelTermType → Option Bytes
  | .p2p | .mp2p => none
  | _ => some mask

def destination (src dst : Bytes) : TunnelTermType → Bytes
  | .mp2mp => src
  | _ => dst

end TunnelTermType

abbrev srcField : FieldID := newFieldIDFromNum ipAddrSrc 0

abbrev dstField : FieldID := newFieldIDFromNum ipAddrDst 0

theorem masked_exact (bytes : Bytes) : masked bytes (List.replicate bytes.length 0xFF) = bytes := by
  induction bytes with
  | nil => rfl
  | cons b rest ih =>
    rw [masked] at ih ⊢
    rw [List.length_cons, List.replicate_succ, List.zipWith_cons_cons, ih]
    congr 1
    exact UInt8.and_neg_one

theorem masked_getD {a b : Bytes} (same : a.length = b.length) (mask : Option Bytes) :
    masked a (mask.getD (List.replicate b.length 0xFF)) =
      masked b (mask.getD (List.replicate b.length 0xFF)) ↔ Same a b mask := by
  cases mask with
  | none =>
    rw [Option.getD_none, masked_exact, ← same, masked_exact]
    rfl
  | some mask => rfl

theorem admits_iff {field : FieldKey} {packet : PacketFields} {id : FieldID} {bytes : Bytes}
    (isBytes : packet id = some bytes) (size : bytes.length = field.value.length)
    (room : bytes.length ≤ Parser.maxSize id) :
    field.Admits Parser.maxSize packet id ↔ masked bytes field.mask = masked field.value field.mask := by
  have padded {part : Bytes} (same : part.length = bytes.length) :
      pad Parser.maxSize id part = List.replicate (Parser.maxSize id - bytes.length) 0 ++ part := by
    rw [pad, if_neg (by omega), resize]
    split
    · rw [same]
    · have full : Parser.maxSize id = bytes.length := by omega
      simp [full, same]
  rw [FieldKey.Admits, packetBytes, isBytes, Option.getD_some, padded rfl, padded size.symm,
    padded (field.sameSize.trans size.symm), List.zipWith_append rfl, List.zipWith_append rfl,
    List.append_cancel_left_eq]
  rfl

structure Outer (size : Nat) (packet : PacketFields) (src dst : Bytes) : Prop where
  fits : PacketFits Parser.maxSize packet
  isSrc : packet srcField = some src
  isDst : packet dstField = some dst
  sizes : src.length = size ∧ dst.length = size

theorem maxSize_addresses : Parser.maxSize srcField = 16 ∧ Parser.maxSize dstField = 16 := by
  decide +kernel

def between (src dst : Bytes) : PacketFields := fun id =>
  if id = srcField then some src else if id = dstField then some dst else none

def flowMatch (l : FieldList) (fd : Desc) (packet : PacketFields) : Bool :=
  (l.makeEntryKey Parser.maxSize fd).match (l.makePacketKey Parser.maxSize packet)

section Match

variable {l : FieldList} {size : Nat} (family : size = 4 ∨ size = 16)
  (covers : srcField ∈ l.fields ∧ dstField ∈ l.fields)

include family covers

theorem fields_match {v₁ m₁ v₂ m₂ : Bytes} (sizes : v₁.length = size ∧ v₂.length = size)
    (maskSizes : m₁.length = size ∧ m₂.length = size) :
    ∃ fd, newDesc [withBytes ipAddrSrc v₁ m₁, withBytes ipAddrDst v₂ m₂] [] = .ok fd ∧
      ∀ packet src dst, Outer size packet src dst → (flowMatch l fd packet = true ↔
        masked src m₁ = masked v₁ m₁ ∧ masked dst m₂ = masked v₂ m₂) := by
  have room := maxSize_addresses
  have made {b m : Bytes} (isSize : b.length = size) (maskSize : m.length = size) :
      ∃ key, newFieldKey b m = .ok key ∧ key.value = b ∧ key.mask = m := by
    rw [newFieldKey, if_pos (by omega), dif_pos (by omega)]
    exact ⟨_, rfl, rfl, rfl⟩
  obtain ⟨k₁, made₁, rfl, rfl⟩ := made sizes.1 maskSizes.1
  obtain ⟨k₂, made₂, rfl, rfl⟩ := made sizes.2 maskSizes.2
  let built := describe [(srcField, k₁), (dstField, k₂)] (∅, fnvNew)
  have only {id : FieldID} {field : FieldKey} (found : built.1.lookup id = some field) :
      id = srcField ∧ field = k₁ ∨ id = dstField ∧ field = k₂ := by
    rcases describe_lookup found with old | member
    · cases old
    · simpa using member
  refine ⟨⟨built.1, ∅, built.2⟩, ?_, fun packet src dst outer => ?_⟩
  · rw [newDesc, newDescKeys_eq, listing, listing, listing]
    simp only [withBytes, made₁, made₂]
    rfl
  · obtain ⟨srcSize, dstSize⟩ := outer.sizes
    rw [flowMatch, makeEntryKey_match ?_ outer.fits ?_, ← admits_iff outer.isSrc (by omega) (by omega),
      ← admits_iff outer.isDst (by omega) (by omega)]
    · constructor
      · exact fun all => ⟨all srcField k₁ rfl, all dstField k₂ rfl⟩
      · rintro ⟨first, second⟩ id field found
        rcases only found with ⟨rfl, rfl⟩ | ⟨rfl, rfl⟩
        · exact first
        · exact second
    · intro id field found
      rcases only found with ⟨rfl, rfl⟩ | ⟨rfl, rfl⟩ <;> omega
    · intro id member
      obtain ⟨field, found⟩ := Option.isSome_iff_exists.mp (AList.lookup_isSome.mpr member)
      rcases only found with ⟨rfl, -⟩ | ⟨rfl, -⟩
      · exact covers.1
      · exact covers.2

theorem tunnelTerm_match_iff {type : TunnelTermType} (named : ∀ number, type ≠ .unnamed number)
    {src dst srcMask dstMask : Bytes} (sizes : src.length = size ∧ dst.length = size)
    (maskSizes : srcMask.length = size ∧ dstMask.length = size) :
    (∃ fd, tunnelTermDesc ⟨type, src, dst, srcMask, dstMask⟩ = .ok fd ∧
      ∀ packet outerSrc outerDst, Outer size packet outerSrc outerDst →
        (flowMatch l fd packet = true ↔ Same outerSrc src (type.sourceMask srcMask) ∧
          Same outerDst dst (type.destinationMask dstMask))) ↔
      (type = .mp2mp → masked src dstMask = masked dst dstMask) := by
  have isSize : (if src.length = 4 ∨ dst.length = 4 then 4 else 16) = size := by
    split <;> omega
  have valueSize : src.length = size ∧ (type.destination src dst).length = size := by
    cases type <;> simp [TunnelTermType.destination, sizes]
  have maskSize : ((type.sourceMask srcMask).getD (List.replicate size 0xFF)).length = size ∧
      ((type.destinationMask dstMask).getD (List.replicate size 0xFF)).length = size := by
    cases type <;> simp [TunnelTermType.sourceMask, TunnelTermType.destinationMask, maskSizes]
  obtain ⟨fd, made, matched⟩ := fields_match family covers valueSize maskSize
  have isDesc : tunnelTermDesc ⟨type, src, dst, srcMask, dstMask⟩ = .ok fd := by
    rw [← made]
    cases type with
    | unnamed number => exact absurd rfl (named number)
    | _ => simp [tunnelTermDesc, termFieldsFromReq, isSize, TunnelTermType.destination,
        TunnelTermType.sourceMask, TunnelTermType.destinationMask]
  have isMatch (packet : PacketFields) (outerSrc outerDst : Bytes)
      (outer : Outer size packet outerSrc outerDst) : flowMatch l fd packet = true ↔
        Same outerSrc src (type.sourceMask srcMask) ∧
          Same outerDst (type.destination src dst) (type.destinationMask dstMask) := by
    rw [matched packet outerSrc outerDst outer,
      ← masked_getD (outer.sizes.1.trans sizes.1.symm), sizes.1,
      ← masked_getD (outer.sizes.2.trans valueSize.2.symm), valueSize.2]
  cases type with
  | mp2mp =>
    constructor
    · rintro ⟨other, isOther, all⟩ -
      cases isDesc.symm.trans isOther
      have outer : Outer size (between src dst) src dst := by
        refine ⟨fun id bytes isBytes => ?_, rfl, rfl, sizes⟩
        have room := maxSize_addresses
        rw [between] at isBytes
        split at isBytes
        · next isSrc =>
          cases isBytes
          rw [isSrc]
          omega
        · split at isBytes <;> cases isBytes
          next isDst =>
          rw [isDst]
          omega
      exact (((isMatch _ _ _ outer).mp ((all _ _ _ outer).mpr ⟨rfl, rfl⟩)).2).symm
    · intro same
      refine ⟨fd, isDesc, fun packet outerSrc outerDst outer => ?_⟩
      refine (isMatch packet outerSrc outerDst outer).trans (and_congr_right fun _ => ?_)
      change masked outerDst dstMask = masked src dstMask ↔ masked outerDst dstMask = masked dst dstMask
      rw [same rfl]
  | _ => exact iff_of_true ⟨fd, isDesc, isMatch⟩ nofun

end Match

theorem tunnelTerm_match_p2p :
    ∃ fd, tunnelTermDesc ⟨.p2p, some [1, 1, 1, 1], some [2, 2, 2, 2], some [0, 0, 0, 0],
      some [0, 0, 0, 0]⟩ = .ok fd ∧ ∀ packet outerSrc outerDst, Outer 4 packet outerSrc outerDst →
        (flowMatch ⟨[srcField, dstField], 32⟩ fd packet = true ↔
          outerSrc = [1, 1, 1, 1] ∧ outerDst = [2, 2, 2, 2]) :=
  (tunnelTerm_match_iff (Or.inl rfl) ⟨by simp, by simp⟩ (by simp) ⟨rfl, rfl⟩ ⟨rfl, rfl⟩).mpr
    nofun

-- The entry from 1.1.1.1 to 2.2.2.2 does not match a packet between the two.
theorem tunnelTerm_mismatch :
    ∃ fd, tunnelTermDesc ⟨.mp2mp, some [1, 1, 1, 1], some [2, 2, 2, 2], some [255, 255, 255, 255],
      some [255, 255, 255, 255]⟩ = .ok fd ∧
      flowMatch ⟨[srcField, dstField], 32⟩ fd (between [1, 1, 1, 1] [2, 2, 2, 2]) = false :=
  ⟨_, rfl, by decide +kernel⟩

end Lemming.Sai
