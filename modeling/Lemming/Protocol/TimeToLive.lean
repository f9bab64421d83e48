import Lemming.Protocol.Memory
import Lemming.Shared.OnesComplement

set_option autoImplicit false

namespace Lemming.Protocol

open Shared Lemming.Packet

section Sums

def ChecksumVerifies (header : Bytes) : Prop := carried (wordSum header) = 65535

instance (header : Bytes) : Decidable (ChecksumVerifies header) :=
  inferInstanceAs (Decidable (_ = 65535))

theorem checksumVerifies_iff (header : Bytes) :
    ChecksumVerifies header ↔ 0 < wordSum header ∧ 65535 ∣ wordSum header := by
  unfold ChecksumVerifies carried
  split <;> omega

theorem decremented_sum (psum pttl : UInt16) :
    (~~~(~~~psum + ~~~pttl + (pttl - 1))).toNat = (psum.toNat + 2) % 65536 := by
  have := psum.toNat_lt
  have := pttl.toNat_lt
  have one : (1 : UInt16).toNat = 1 := rfl
  simp only [UInt16.toNat_not, UInt16.toNat_add, UInt16.toNat_sub, UInt16.size, one]
  omega

end Sums

section Decrement

variable {heap : Heap UInt8} {header : Slice} {front rest : Bytes} {ttl proto high low : UInt8}

theorem overwrite_at {new old : Bytes} {off : Nat} (isOff : front.length = off)
    (same : new.length = old.length) :
    overwrite (front ++ (old ++ rest)) off new = front ++ (new ++ rest) := by
  subst isOff
  have after : (front ++ (old ++ rest)).drop (front.length + new.length) = rest := by
    rw [same, ← List.append_assoc, ← List.length_append, List.drop_left]
  rw [overwrite, List.take_left, after, List.append_assoc]

theorem slice_at {mid : Bytes} {off n : Nat} (isOff : front.length = off) (isLength : mid.length = n) :
    slice (front ++ (mid ++ rest)) off n = mid := by
  subst isOff isLength
  rw [slice, List.drop_left, List.take_left]

theorem header_words {bytes : Bytes} (large : 12 ≤ bytes.length) :
    ∃ front ttl proto high low rest, front.length = 8 ∧
      bytes = front ++ (ttl :: proto :: high :: low :: rest) := by
  have split := (List.take_append_drop 8 bytes).symm
  have front : (bytes.take 8).length = 8 := by
    rw [List.length_take]
    omega
  have more : 4 ≤ (bytes.drop 8).length := by
    rw [List.length_drop]
    omega
  rcases isDrop : bytes.drop 8 with _ | ⟨ttl, _ | ⟨proto, _ | ⟨high, _ | ⟨low, rest⟩⟩⟩⟩
  case cons.cons.cons.cons => exact ⟨_, ttl, proto, high, low, rest, front, isDrop ▸ split⟩
  all_goals
    rw [isDrop] at more
    simp at more

theorem decrementTTL_yields (inside : header.Inside heap) (isFront : front.length = 8)
    (isHeader : header.get heap = front ++ (ttl :: proto :: high :: low :: rest)) :
    (IPHeader.decrementTTL heap header (.part 8 1)).Yields fun heap' =>
      header.get heap' = front ++ (octetsOf 1 (ttl.toNat + 65535) ++
        (proto :: (octetsOf 2 (high.toNat * 256 + low.toNat + 2) ++ rest))) := by
  have length := Slice.get_length inside
  rw [isHeader, List.length_append, isFront] at length
  simp only [List.length_cons] at length
  have isTtl : (header.sub 8 1).get heap = [ttl] := by
    rw [Slice.get_sub (by omega), isHeader]
    exact @slice_at front (proto :: high :: low :: rest) [ttl] 8 1 isFront rfl
  have isValue : Field.value [ttl] = .ok ttl.toNat := by
    simp [Field.value, Field.Numeric, octetsValue]
  have isWrite (value : Nat) : FieldRef.update heap header
      (fun field => .ok (octetsOf field.length value)) (.part 8 1) =
        Header.setValue heap header 8 1 value := by
    rw [Header.setValue, if_neg (by omega), if_pos (Or.inl rfl), FieldRef.update, isTtl]
    rfl
  rw [IPHeader.decrementTTL]
  simp only [FieldRef.get, isTtl, isValue, Outcome.ok_bind, isWrite]
  refine (setValue_yields inside (by omega) (Or.inl rfl) _).bind fun heap₁ first => ?_
  -- Up to the checksum there are ten bytes, before and after.
  have isFirst : header.get heap₁ = (front ++ (octetsOf 1 (ttl.toNat + 65535) ++ [proto])) ++
      ([high, low] ++ rest) := by
    have same : octetsOf 1 (UInt16.ofNat ttl.toNat - 1).toNat = octetsOf 1 (ttl.toNat + 65535) := by
      have := ttl.toNat_lt
      have one : (1 : UInt16).toNat = 1 := rfl
      refine octetsOf_congr ?_
      rw [UInt16.toNat_sub, UInt16.toNat_ofNat', one]
      omega
    rw [first.2, isHeader, same]
    refine (@overwrite_at front _ _ [ttl] 8 isFront (octetsOf_length _ _)).trans ?_
    simp
  have ten : (front ++ (octetsOf 1 (ttl.toNat + 65535) ++ [proto])).length = 10 := by
    simp [isFront, octetsOf_length]
  have isSum : Field.value (Header.field (header.get heap₁) 10 2) =
      .ok (high.toNat * 256 + low.toNat) := by
    have isLong : ¬ (header.get heap₁).length < 10 + 2 := by
      rw [Slice.get_length (inside.grown first.1.1)]
      omega
    rw [Header.field, if_neg isLong, isFirst, @slice_at _ rest [high, low] 10 2 ten rfl]
    simp [Field.value, Field.Numeric, octetsValue]
  rw [isSum, Outcome.ok_bind]
  refine (setValue_yields (inside.grown first.1.1) (by omega) (Or.inr (Or.inl rfl)) _).imp
    fun heap' written => ?_
  rw [written.2, isFirst]
  refine (@overwrite_at _ rest _ [high, low] 10 ten (octetsOf_length _ _)).trans ?_
  have small : (UInt16.ofNat (high.toNat * 256 + low.toNat)).toNat = high.toNat * 256 + low.toNat := by
    have := high.toNat_lt
    have := low.toNat_lt
    rw [UInt16.toNat_ofNat']
    omega
  have same : octetsOf 2 ((high.toNat * 256 + low.toNat + 2) % 65536) =
      octetsOf 2 (high.toNat * 256 + low.toNat + 2) := octetsOf_congr (by omega)
  rw [decremented_sum, small]
  simp [same]

theorem decrement_unverifies (alive : 1 ≤ ttl.toNat) (isFront : front.length = 8)
    (verifies : ChecksumVerifies (front ++ (ttl :: proto :: high :: low :: rest))) :
    ¬ ChecksumVerifies (front ++ (octetsOf 1 (ttl.toNat + 65535) ++
      (proto :: (octetsOf 2 (high.toNat * 256 + low.toNat + 2) ++ rest)))) := by
  have even : 2 ∣ front.length := by omega
  have isOne : octetsOf 1 (ttl.toNat + 65535) = [UInt8.ofNat (ttl.toNat + 65535)] := rfl
  have isLess : (UInt8.ofNat (ttl.toNat + 65535)).toNat = ttl.toNat - 1 := by
    have := ttl.toNat_lt
    rw [UInt8.toNat_ofNat']
    omega
  have := high.toNat_lt
  have := low.toNat_lt
  rw [checksumVerifies_iff, wordSum_append even, wordSum, wordSum] at verifies
  rw [checksumVerifies_iff, wordSum_append even, isOne, List.singleton_append, wordSum, isLess,
    wordSum_append (by rw [octetsOf_length]), wordSum_two]
  omega

theorem decrement_keeps_checksum_iff {payload : Nat} (inside : header.Inside heap)
    (shaped : (IPHeader.ip4 header payload).Shaped Slice.len) (arg : Bytes)
    (alive : 1 ≤ octetsValue (slice (header.get heap) 8 1)) :
    ∃ heap', IPHeader.update heap { num := hopField } .dec arg (.ip4 header payload) =
        .ok (heap', .ip4 header payload, false) ∧
      ((ChecksumVerifies (header.get heap) → ChecksumVerifies (header.get heap')) ↔
        ¬ ChecksumVerifies (header.get heap)) := by
  have length := Slice.get_length inside
  obtain ⟨front, ttl, proto, high, low, rest, isFront, isHeader⟩ :=
    @header_words (header.get heap) (by rw [length]; exact shaped.1)
  obtain ⟨heap', isOk, written⟩ := decrementTTL_yields inside isFront isHeader
  have isTtl : slice (header.get heap) 8 1 = [ttl] := by
    rw [isHeader]
    exact @slice_at front (proto :: high :: low :: rest) [ttl] 8 1 isFront rfl
  rw [isTtl] at alive
  refine ⟨heap', ?_, ?_⟩
  · have large := shaped.1
    have found : IPHeader.field heap IPHeader.ip4Places header { num := hopField } =
        .ok (some (.part 8 1)) := by
      rw [IPHeader.field, if_neg (by decide)]
      show Outcome.ok (FieldRef.within header 8 1) = _
      rw [FieldRef.within, if_neg (by omega)]
    rw [IPHeader.update, IPHeader.updateIP4, found, Outcome.ok_bind]
    simp only [and_self, if_true, isOk]
    rfl
  · constructor
    · intro keeps verifies
      have after := keeps verifies
      rw [isHeader] at verifies
      rw [written] at after
      exact decrement_unverifies (by simpa [octetsValue] using alive) isFront verifies after
    · intro fails verifies
      exact absurd verifies fails

def living : Bytes := [0x45, 0, 0, 20, 0, 0, 0, 0, 64, 0, 0x7a, 0xeb, 0, 0, 0, 0, 0, 0, 0, 0]

def aged : Bytes := [0x45, 0, 0, 20, 0, 0, 0, 0, 63, 0, 0x7a, 0xed, 0, 0, 0, 0, 0, 0, 0, 0]

theorem decrement_living :
    ∃ heap', IPHeader.update [living] { num := hopField } .dec [] (.ip4 ⟨0, 0, 20⟩ 0) =
        .ok (heap', .ip4 ⟨0, 0, 20⟩ 0, false) ∧
      ((ChecksumVerifies living → ChecksumVerifies (Slice.get heap' ⟨0, 0, 20⟩)) ↔
        ¬ ChecksumVerifies living) :=
  decrement_keeps_checksum_iff ⟨by decide, by decide⟩ ⟨by decide, by decide⟩ [] (by decide)

theorem decrement_spoils_living :
    (do
      let (heap, _, dirty) ← IPHeader.update [living] { num := hopField } .dec [1] (.ip4 ⟨0, 0, 20⟩ 0)
      return (Slice.get heap ⟨0, 0, 20⟩, dirty)) = Outcome.ok (aged, false) ∧
    ChecksumVerifies living ∧ ¬ ChecksumVerifies aged := by
  decide +kernel

end Decrement

end Lemming.Protocol
