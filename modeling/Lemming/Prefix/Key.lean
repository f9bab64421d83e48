import Lemming.Shared.BitString
import Lemming.Shared.Outcome
import Lemming.Shared.RadixTrie

set_option autoImplicit false

namespace Lemming.Prefix

open Shared

def byteBitCount : Nat := 8
def byteLogCount : Nat := 3

def byteCount (bitCount : Nat) : Nat :=
  if bitCount ≤ byteBitCount then 1 else (bitCount + byteBitCount - 1) >>> byteLogCount

abbrev Wordset := List UInt8

-- Indexing past the last byte is a run-time panic, in `bit` and in `set`.
def Wordset.bit (ws : Wordset) (bitpos : Nat) : Outcome Bool :=
  let idx := bitpos >>> byteLogCount
  let pos := byteBitCount - 1 - (bitpos &&& (byteBitCount - 1))
  match ws[idx]? with
  | some word => .ok ((word >>> UInt8.ofNat pos) &&& 1 == 1)
  | none => .panic

def Wordset.set (ws : Wordset) (bitpos : Nat) (v : Bool) : Outcome Wordset :=
  let idx := bitpos >>> byteLogCount
  let pos := byteBitCount - 1 - (bitpos &&& (byteBitCount - 1))
  let mask : UInt8 := 1 <<< UInt8.ofNat pos
  match ws[idx]? with
  | some word => .ok (List.set ws idx (if v then word ||| mask else word &&& ~~~mask))
  | none => .panic

structure Key where
  bytes : Wordset
  bitCount : Nat
  bitStart : Nat
deriving DecidableEq, Repr

variable (value : List UInt8)

def newKey (bitCount : Nat) : Key :=
  let count := if byteCount bitCount < value.length then value.length else byteCount bitCount
  { bytes := value ++ List.replicate (count - value.length) 0, bitCount, bitStart := 0 }

namespace Key

variable (s : Key)

def bit (bitpos : Nat) : Outcome Bool :=
  Wordset.bit s.bytes (s.bitStart + bitpos)

def set (bitpos : Nat) (v : Bool) : Outcome Key := do
  let bytes ← Wordset.set s.bytes (s.bitStart + bitpos) v
  return { s with bytes }

def agree (s q : Key) : Nat → Nat → Outcome Bool
  | 0, _ => .ok true
  | count + 1, pos => do
    if (← s.bit pos) != (← q.bit pos) then return false
    agree s q count (pos + 1)

def hasPrefix (q : Key) : Outcome Bool :=
  if s.bitCount < q.bitCount then .ok false else agree s q q.bitCount 0

def isEqual (q : Key) : Outcome Bool :=
  if s.bitCount ≠ q.bitCount then .ok false else agree s q s.bitCount 0

def trimPrefix (q : Key) : Key :=
  { s with bitCount := s.bitCount - q.bitCount, bitStart := s.bitStart + q.bitCount }

def copyBits (src : Key) (offset : Nat) : Nat → Nat → Key → Outcome Key
  | 0, _, dst => .ok dst
  | count + 1, pos, dst => do
    let dst ← dst.set (offset + pos) (← src.bit pos)
    copyBits src offset count (pos + 1) dst

def zeros (bitCount : Nat) : Key :=
  { bytes := List.replicate (byteCount bitCount) 0, bitCount, bitStart := 0 }

def pack : Outcome Key :=
  copyBits s 0 s.bitCount 0 (zeros s.bitCount)

def string : Outcome String := do
  let packed ← s.pack
  let digits := packed.bytes.flatMap fun word =>
    [Nat.digitChar (word.toNat / 16), Nat.digitChar (word.toNat % 16)]
  return String.ofList digits ++ "/" ++ toString packed.bitCount

end Key

def combine (s1 s2 : Key) : Outcome Key := do
  let s ← Key.copyBits s1 0 s1.bitCount 0 (Key.zeros (s1.bitCount + s2.bitCount))
  Key.copyBits s2 s1.bitCount s2.bitCount 0 s

-- The loop of `prefixKey`: stop at the first difference, keeping the bits before it.
def commonBits (s1 s2 : Key) : Nat → Nat → Wordset → Outcome Key
  | 0, count, bytes => .ok { bytes, bitCount := count, bitStart := 0 }
  | left + 1, count, bytes => do
    let v ← s1.bit count
    if v != (← s2.bit count) then return { bytes, bitCount := count, bitStart := 0 }
    commonBits s1 s2 left (count + 1) (← Wordset.set bytes count v)

def prefixKey (s1 s2 : Key) : Outcome Key :=
  let max := if s2.bitCount < s1.bitCount then s2.bitCount else s1.bitCount
  commonBits s1 s2 max 0 (List.replicate (byteCount max) 0)

theorem byteCount_enough (bitCount : Nat) : bitCount ≤ 8 * byteCount bitCount := by
  unfold byteCount byteBitCount byteLogCount
  split
  · omega
  · rw [Nat.shiftRight_eq_div_pow]
    omega

theorem position_split (bitpos : Nat) :
    bitpos >>> byteLogCount = bitpos / 8 ∧
      byteBitCount - 1 - (bitpos &&& (byteBitCount - 1)) = 7 - bitpos % 8 := by
  have masked : bitpos &&& 7 = bitpos % 8 := Nat.and_two_pow_sub_one_eq_mod bitpos 3
  refine ⟨Nat.shiftRight_eq_div_pow bitpos 3, ?_⟩
  simp [byteBitCount, masked]

theorem Wordset.bit_correct {ws : Wordset} {bitpos : Nat} {v : Bool}
    (stored : (bitString ws)[bitpos]? = some v) : Wordset.bit ws bitpos = .ok v := by
  rw [bitString_getElem?] at stored
  obtain ⟨word, present, rfl⟩ := Option.map_eq_some_iff.mp stored
  simp only [Wordset.bit, (position_split bitpos).1, (position_split bitpos).2, present]
  rw [shifted_bit word _ (by omega)]

theorem Wordset.set_correct (ws : Wordset) (bitpos : Nat) (v : Bool)
    (bound : bitpos < 8 * ws.length) :
    ∃ after, Wordset.set ws bitpos v = .ok after ∧ bitString after = (bitString ws).set bitpos v := by
  have within : bitpos / 8 < ws.length := by omega
  have present := List.getElem?_eq_getElem within
  refine ⟨_, ?_, bitString_set ws bitpos ws[bitpos / 8] v present⟩
  simp [Wordset.set, (position_split bitpos).1, (position_split bitpos).2, present]

namespace Key

def Valid (s : Key) : Prop :=
  s.bitStart + s.bitCount ≤ 8 * s.bytes.length

def bits (s : Key) : List Bool :=
  ((bitString s.bytes).drop s.bitStart).take s.bitCount

variable {s : Key}

theorem bits_length (valid : s.Valid) : s.bits.length = s.bitCount := by
  unfold Valid at valid
  simp only [bits, List.length_take, List.length_drop, bitString_length]
  omega

theorem bit_correct {pos : Nat} {v : Bool} (stored : s.bits[pos]? = some v) :
    s.bit pos = .ok v := by
  apply Wordset.bit_correct
  rw [bits, List.getElem?_take] at stored
  split at stored
  · rwa [List.getElem?_drop] at stored
  · cases stored

theorem bit_getElem {pos : Nat} (within : pos < s.bits.length) :
    s.bit pos = .ok s.bits[pos] :=
  bit_correct (List.getElem?_eq_getElem within)

theorem agree_correct (s q : Key) (count pos : Nat) (left : pos + count ≤ s.bits.length)
    (right : pos + count ≤ q.bits.length) :
    agree s q count pos =
      .ok (decide ((s.bits.drop pos).take count = (q.bits.drop pos).take count)) := by
  induction count generalizing pos with
  | zero => simp [agree]
  | succ count ih =>
    have inLeft : pos < s.bits.length := by omega
    have inRight : pos < q.bits.length := by omega
    have nextLeft : (s.bits.drop pos).take (count + 1) =
        s.bits[pos] :: (s.bits.drop (pos + 1)).take count := by
      rw [List.drop_eq_getElem_cons inLeft, List.take_succ_cons]
    have nextRight : (q.bits.drop pos).take (count + 1) =
        q.bits[pos] :: (q.bits.drop (pos + 1)).take count := by
      rw [List.drop_eq_getElem_cons inRight, List.take_succ_cons]
    rw [agree, bit_getElem inLeft, bit_getElem inRight]
    simp only [nextLeft, nextRight, List.cons.injEq]
    by_cases same : s.bits[pos] = q.bits[pos]
    · simp [same, ih (pos + 1) (by omega) (by omega)]
    · simp [same]

theorem hasPrefix_correct {q : Key} (left : s.Valid) (right : q.Valid) :
    s.hasPrefix q = .ok (decide (q.bits <+: s.bits)) := by
  have sizeLeft := bits_length left
  have sizeRight := bits_length right
  unfold hasPrefix
  split
  · next shorter =>
    have excluded : ¬ q.bits <+: s.bits := fun included => by
      have bound := included.length_le
      omega
    simp [excluded]
  · rw [agree_correct s q q.bitCount 0 (by omega) (by omega)]
    simp only [List.drop_zero, List.prefix_iff_eq_take, ← sizeRight, List.take_length, eq_comm]

theorem isEqual_correct {q : Key} (left : s.Valid) (right : q.Valid) :
    s.isEqual q = .ok (decide (s.bits = q.bits)) := by
  have sizeLeft := bits_length left
  have sizeRight := bits_length right
  unfold isEqual
  split
  · next different =>
    have excluded : s.bits ≠ q.bits := fun same => different (by rw [← sizeLeft, same, sizeRight])
    simp [excluded]
  · next same =>
    have count : s.bitCount = q.bitCount := by simpa using same
    rw [agree_correct s q s.bitCount 0 (by omega) (by omega)]
    simp only [List.drop_zero, List.take_of_length_le (Nat.le_of_eq sizeLeft),
      List.take_of_length_le (Nat.le_of_eq (sizeRight.trans count.symm))]

theorem trimPrefix_bits (s q : Key) : (s.trimPrefix q).bits = s.bits.drop q.bitCount := by
  simp only [bits, trimPrefix, List.drop_take, List.drop_drop]

theorem trimPrefix_valid {q : Key} (valid : s.Valid) (shorter : q.bitCount ≤ s.bitCount) :
    (s.trimPrefix q).Valid := by
  unfold Valid at valid
  simp only [Valid, trimPrefix]
  omega

theorem bits_at_zero (bytes : Wordset) (bitCount : Nat) :
    bits { bytes, bitCount, bitStart := 0 } = (bitString bytes).take bitCount := rfl

theorem copyBits_correct (src dst : Key) (offset count pos : Nat) (start : dst.bitStart = 0)
    (readable : pos + count ≤ src.bits.length)
    (writable : offset + pos + count ≤ 8 * dst.bytes.length) :
    ∃ after, copyBits src offset count pos dst =
        .ok { bytes := after, bitCount := dst.bitCount, bitStart := 0 } ∧
      bitString after = (bitString dst.bytes).take (offset + pos) ++
        ((src.bits.drop pos).take count ++ (bitString dst.bytes).drop (offset + pos + count)) := by
  induction count generalizing pos dst with
  | zero =>
    refine ⟨dst.bytes, ?_, by simp⟩
    rw [copyBits, ← start]
  | succ count ih =>
    have inSource : pos < src.bits.length := by omega
    obtain ⟨bytes, written, result⟩ :=
      Wordset.set_correct dst.bytes (offset + pos) src.bits[pos] (by omega)
    have size : bytes.length = dst.bytes.length := by
      have sameLength := congrArg List.length result
      simp only [bitString_length, List.length_set] at sameLength
      omega
    obtain ⟨after, finished, final⟩ := ih { dst with bytes } (pos + 1) start (by omega)
      (by simp only [size]; omega)
    refine ⟨after, ?_, ?_⟩
    · rw [copyBits, bit_getElem inSource]
      simpa [Key.set, start, written] using finished
    · have inTarget : offset + pos < ((bitString dst.bytes).set (offset + pos) src.bits[pos]).length := by
        rw [List.length_set, bitString_length]
        omega
      have front : ((bitString dst.bytes).set (offset + pos) src.bits[pos]).take (offset + pos + 1) =
          (bitString dst.bytes).take (offset + pos) ++ [src.bits[pos]] := by
        rw [List.take_succ_eq_append_getElem inTarget, List.getElem_set_self,
          List.take_set_of_le (Nat.le_refl _)]
      rw [final, result, ← Nat.add_assoc offset pos 1, front, List.drop_set_of_lt (by omega),
        List.drop_eq_getElem_cons inSource, List.take_succ_cons]
      simp [Nat.add_assoc, Nat.add_comm 1 count]

theorem zeros_size (bitCount : Nat) : bitCount ≤ 8 * (zeros bitCount).bytes.length := by
  simpa [zeros] using byteCount_enough bitCount

theorem pack_correct (valid : s.Valid) :
    ∃ packed, s.pack = .ok packed ∧ packed.Valid ∧ packed.bits = s.bits ∧ packed.bitStart = 0 := by
  have size := bits_length valid
  have room := zeros_size s.bitCount
  obtain ⟨bytes, written, result⟩ := copyBits_correct s (zeros s.bitCount) 0 s.bitCount 0 rfl
    (by omega) (by omega)
  have length := congrArg List.length result
  refine ⟨_, written, ?_, ?_, rfl⟩
  · simp only [bitString_length, List.length_append, List.length_take, List.length_drop] at length
    simp only [Valid, zeros] at room length ⊢
    omega
  · rw [bits_at_zero, result]
    simp [zeros, ← size]

theorem string_correct (s : Key) (valid : s.Valid) : ∃ text, s.string = .ok text := by
  obtain ⟨packed, run, -⟩ := pack_correct valid
  simp [string, run]

end Key

theorem newKey_valid (bitCount : Nat) : (newKey value bitCount).Valid := by
  have room := byteCount_enough bitCount
  simp only [Key.Valid, newKey, List.length_append, List.length_replicate]
  split <;> omega

theorem newKey_take {value : List UInt8} {bitCount : Nat} (short : bitCount ≤ 8 * value.length) :
    (newKey value bitCount).bits = (bitString value).take bitCount := by
  rw [newKey, Key.bits_at_zero, bitString_append, List.take_append_of_le_length]
  rwa [bitString_length]

theorem newKey_bits :
    (newKey value (8 * value.length)).bits = bitString value := by
  rw [newKey_take (Nat.le_refl _), ← bitString_length, List.take_length]

theorem combine_correct {s1 s2 : Key} (left : s1.Valid) (right : s2.Valid) :
    ∃ s, combine s1 s2 = .ok s ∧ s.Valid ∧ s.bits = s1.bits ++ s2.bits := by
  have sizeLeft := Key.bits_length left
  have sizeRight := Key.bits_length right
  have room := Key.zeros_size (s1.bitCount + s2.bitCount)
  obtain ⟨first, firstRun, firstBits⟩ := Key.copyBits_correct s1
    (Key.zeros (s1.bitCount + s2.bitCount)) 0 s1.bitCount 0 rfl (by omega) (by omega)
  have firstLength := congrArg List.length firstBits
  simp only [bitString_length, List.length_append, List.length_take, List.length_drop] at firstLength
  obtain ⟨second, secondRun, secondBits⟩ := Key.copyBits_correct s2
    { bytes := first, bitCount := s1.bitCount + s2.bitCount, bitStart := 0 }
    s1.bitCount s2.bitCount 0 rfl (by omega) (by simp only; omega)
  have secondLength := congrArg List.length secondBits
  simp only [bitString_length, List.length_append, List.length_take, List.length_drop] at secondLength
  refine ⟨{ bytes := second, bitCount := s1.bitCount + s2.bitCount, bitStart := 0 }, ?_, ?_, ?_⟩
  · rw [combine, firstRun]
    exact secondRun
  · simp only [Key.Valid]
    omega
  · rw [Key.bits_at_zero, secondBits, firstBits]
    simp [Key.zeros, ← sizeLeft, ← sizeRight, List.take_append]

theorem commonBits_correct (s1 s2 : Key) (left count : Nat) (bytes : Wordset)
    (readLeft : count + left ≤ s1.bits.length) (readRight : count + left ≤ s2.bits.length)
    (room : count + left ≤ 8 * bytes.length)
    (copied : (bitString bytes).take count = s1.bits.take count) :
    ∃ p, commonBits s1 s2 left count bytes = .ok p ∧ p.Valid ∧
      p.bits = s1.bits.take count ++
        commonPrefix ((s1.bits.drop count).take left) ((s2.bits.drop count).take left) := by
  induction left generalizing count bytes with
  | zero => exact ⟨_, rfl, by simp only [Key.Valid]; omega, by simp [Key.bits_at_zero, copied]⟩
  | succ left ih =>
    have inLeft : count < s1.bits.length := by omega
    have inRight : count < s2.bits.length := by omega
    rw [commonBits, Key.bit_getElem inLeft, Key.bit_getElem inRight,
      List.drop_eq_getElem_cons inLeft, List.drop_eq_getElem_cons inRight, List.take_succ_cons,
      List.take_succ_cons]
    by_cases same : s1.bits[count] = s2.bits[count]
    · obtain ⟨after, written, result⟩ :=
        Wordset.set_correct bytes count s1.bits[count] (by omega)
      have size : after.length = bytes.length := by
        have sameLength := congrArg List.length result
        simp only [bitString_length, List.length_set] at sameLength
        omega
      have inBytes : count < ((bitString bytes).set count s1.bits[count]).length := by
        rw [List.length_set, bitString_length]
        omega
      have next : (bitString after).take (count + 1) = s1.bits.take (count + 1) := by
        rw [result, List.take_succ_eq_append_getElem inBytes, List.getElem_set_self,
          List.take_set_of_le (Nat.le_refl _), copied, List.take_succ_eq_append_getElem inLeft]
      obtain ⟨p, finished, valid, final⟩ := ih (count + 1) after (by omega) (by omega)
        (by omega) next
      refine ⟨p, by simpa [← same, written] using finished, valid, ?_⟩
      rw [final, List.take_succ_eq_append_getElem inLeft]
      simp [commonPrefix, same]
    · refine ⟨{ bytes, bitCount := count, bitStart := 0 }, by simp [same], ?_, ?_⟩
      · simp only [Key.Valid]
        omega
      · simp [Key.bits_at_zero, copied, commonPrefix, same]

theorem commonPrefix_take (first second : List Bool) :
    commonPrefix (first.take (min first.length second.length))
      (second.take (min first.length second.length)) = commonPrefix first second := by
  induction first generalizing second with
  | nil => simp
  | cons a as ih =>
    cases second with
    | nil => simp
    | cons b bs => simp [commonPrefix, Nat.succ_min_succ, ih]

theorem prefixKey_correct {s1 s2 : Key} (left : s1.Valid) (right : s2.Valid) :
    ∃ p, prefixKey s1 s2 = .ok p ∧ p.Valid ∧ p.bits = commonPrefix s1.bits s2.bits := by
  have sizeLeft := Key.bits_length left
  have sizeRight := Key.bits_length right
  have max : (if s2.bitCount < s1.bitCount then s2.bitCount else s1.bitCount) =
      min s1.bits.length s2.bits.length := by
    split <;> omega
  have room := byteCount_enough (min s1.bits.length s2.bits.length)
  obtain ⟨p, found, valid, bits⟩ := commonBits_correct s1 s2 (min s1.bits.length s2.bits.length) 0
    (List.replicate (byteCount (min s1.bits.length s2.bits.length)) 0) (by omega) (by omega)
    (by simpa using room) (by simp)
  refine ⟨p, by simpa [prefixKey, max] using found, valid, ?_⟩
  simpa [commonPrefix_take] using bits

-- What two keys do, said of their lists of bits. An outcome that is not a panic has read only bytes
-- that the keys store.
structure Key.AsBits (s q : Key) : Prop where
  hasPrefix : s.hasPrefix q = .ok (decide (q.bits <+: s.bits))
  isEqual : s.isEqual q = .ok (decide (s.bits = q.bits))
  prefixKey : ∃ p, prefixKey s q = .ok p ∧ p.Valid ∧ p.bits <+: s.bits ∧ p.bits <+: q.bits ∧
    ∀ word, word <+: s.bits → word <+: q.bits → word <+: p.bits
  combine : ∃ c, combine s q = .ok c ∧ c.Valid ∧ c.bits = s.bits ++ q.bits
  trimPrefix : q.bits <+: s.bits →
    (s.trimPrefix q).Valid ∧ (s.trimPrefix q).bits = s.bits.drop q.bits.length
  pack : ∃ packed, s.pack = .ok packed ∧ packed.Valid ∧ packed.bits = s.bits ∧ packed.bitStart = 0

theorem keys_as_bits {s q : Key} (left : s.Valid) (right : q.Valid) : s.AsBits q where
  hasPrefix := Key.hasPrefix_correct left right
  isEqual := Key.isEqual_correct left right
  prefixKey := by
    obtain ⟨p, found, valid, bits⟩ := prefixKey_correct left right
    refine ⟨p, found, valid, ?_⟩
    rw [bits]
    exact ⟨commonPrefix_prefix_left _ _, commonPrefix_prefix_right _ _,
      fun _ inLeft inRight => prefix_commonPrefix inLeft inRight⟩
  combine := combine_correct left right
  trimPrefix included := by
    have shorter := included.length_le
    rw [Key.bits_length left, Key.bits_length right] at shorter
    rw [Key.trimPrefix_bits, Key.bits_length right]
    exact ⟨Key.trimPrefix_valid left shorter, rfl⟩
  pack := Key.pack_correct left

theorem keys_as_bits_unaligned :
    Key.AsBits ⟨[0xa5, 0x3c], 9, 3⟩ ⟨[0x12, 0x80], 4, 7⟩ :=
  keys_as_bits (by simp [Key.Valid]) (by simp [Key.Valid])

end Lemming.Prefix
