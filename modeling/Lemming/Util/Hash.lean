import Lemming.Protocol.Consistency
import Lemming.Shared.ShiftRegister

set_option autoImplicit false

namespace Lemming.Util

open Shared Lemming.Packet

namespace Crc16

open ShiftRegister

abbrev Table := Vector (BitVec 16) 256

theorem index_lt (crc : BitVec 16) : (crc &&& 0xff#16).toNat < 256 := by
  rw [BitVec.toNat_and]
  exact Nat.lt_succ_of_le Nat.and_le_right

def Table.update (t : Table) (crc : BitVec 16) (p : Bytes) : BitVec 16 :=
  p.foldl (fun crc v =>
    (crc >>> 8) ^^^ t.get ⟨((crc ^^^ v.toBitVec.setWidth 16) &&& 0xff#16).toNat, index_lt _⟩) crc

def halve (poly crc : BitVec 16) : BitVec 16 :=
  if crc &&& 1#16 = 1#16 then (crc >>> 1) ^^^ poly else crc >>> 1

def makeTable (poly : BitVec 16) : Table :=
  Vector.ofFn fun i => (halve poly)^[8] (BitVec.ofNat 16 i)

def bitwise (poly crc : BitVec 16) (p : Bytes) : BitVec 16 :=
  (p.flatMap fun v => lowBits 8 v.toBitVec).foldl (feed poly) crc

theorem halve_eq (poly : BitVec 16) : halve poly = shift poly := by
  funext crc
  rw [halve, shift, BitVec.and_one_eq_setWidth_ofBool_getLsbD]
  cases crc.getLsbD 0 <;> rfl

theorem masked_low (x : BitVec 16) : lowBits 8 (x &&& 0xff#16) = lowBits 8 x := by
  refine List.map_congr_left fun i small => ?_
  have low : (0xff#16).getLsbD i = true := by
    have all : ∀ i < 8, (0xff#16).getLsbD i = true := by decide
    exact all i (List.mem_range.mp small)
  rw [BitVec.getLsbD_and, low, Bool.and_true]

theorem octet_short {v : BitVec 16} (small : v.toNat < 256) : v >>> 8 = 0#16 := by
  apply BitVec.eq_of_toNat_eq
  rw [BitVec.toNat_ushiftRight, Nat.shiftRight_eq_div_pow]
  exact Nat.div_eq_of_lt small

theorem makeTable_get (poly x : BitVec 16) :
    (makeTable poly).get ⟨(x &&& 0xff#16).toNat, index_lt x⟩ = (shift poly)^[8] (x &&& 0xff#16) := by
  have entry (i : Fin 256) : (makeTable poly).get i = (halve poly)^[8] (BitVec.ofNat 16 i) :=
    Vector.getElem_ofFn _
  rw [entry, halve_eq, BitVec.ofNat_toNat, BitVec.setWidth_eq]

theorem update_octet (poly crc : BitVec 16) (v : UInt8) :
    (makeTable poly).update crc [v] = (lowBits 8 v.toBitVec).foldl (feed poly) crc := by
  have octet : (v.toBitVec.setWidth 16) >>> 8 = 0#16 := octet_short (by simpa using v.toNat_lt)
  have bits : lowBits 8 (v.toBitVec.setWidth 16) = lowBits 8 v.toBitVec := by
    refine List.map_congr_left fun i small => ?_
    have : i < 16 := by
      have := List.mem_range.mp small
      omega
    simp [this]
  have serial := iterate_shift_xor poly 8 crc (v.toBitVec.setWidth 16)
  have split := iterate_shift_low poly (masked_low (crc ^^^ v.toBitVec.setWidth 16))
    (octet_short (index_lt _))
  rw [split, octet, bits, BitVec.xor_zero, BitVec.ushiftRight_xor_distrib, octet, BitVec.xor_zero]
    at serial
  rw [← serial, Table.update, List.foldl_cons, List.foldl_nil, makeTable_get]

theorem table_eq_bitwise (poly crc : BitVec 16) (p : Bytes) :
    (makeTable poly).update crc p = bitwise poly crc p := by
  induction p generalizing crc with
  | nil => rfl
  | cons v p ih =>
    have first := update_octet poly crc v
    rw [bitwise, List.flatMap_cons, List.foldl_append, ← first]
    exact ih _

end Crc16

namespace Csum16

open Protocol.Csum16

theorem wordSum_flatten {chunks : List Bytes} (even : ∀ chunk ∈ chunks.dropLast, 2 ∣ chunk.length) :
    wordSum chunks.flatten = (chunks.map wordSum).sum := by
  induction chunks with
  | nil => rfl
  | cons chunk chunks ih =>
    cases chunks with
    | nil => simp
    | cons next rest =>
      rw [List.dropLast_cons_cons, List.forall_mem_cons] at even
      rw [List.flatten_cons, wordSum_append even.1, ih even.2, List.map_cons (a := chunk), List.sum_cons (a := wordSum chunk)]

theorem writes_internet_checksum (chunks : List Bytes) (short : ∀ chunk ∈ chunks, chunk.length ≤ 2 ^ 16)
    (even : ∀ chunk ∈ chunks.dropLast, 2 ∣ chunk.length) :
    ((chunks.foldl write 0).toNat =
      if ∃ octet ∈ chunks.flatten, octet ≠ 0 then 65535 - onesSum chunks.flatten else 0) ∧
    ∀ off, 2 ∣ off → off + 2 ≤ chunks.flatten.length → slice chunks.flatten off 2 = [0, 0] →
      (∃ octet ∈ chunks.flatten, octet ≠ 0) →
      onesSum (overwrite chunks.flatten off (octetsOf 2 (chunks.foldl write 0).toNat)) = 65535 := by
  have written := foldl_write short 0
  have zero : (0 : UInt16).toNat = 0 := rfl
  rw [zero, Nat.sub_zero, ← wordSum_flatten even] at written
  have nonzero : (∃ octet ∈ chunks.flatten, octet ≠ 0) ↔ wordSum chunks.flatten ≠ 0 := by
    rw [Ne, wordSum_eq_zero_iff]
    push Not
    rfl
  simp only [written, nonzero, onesSum_eq]
  generalize chunks.flatten = data
  constructor
  · unfold carried
    split <;> split <;> omega
  · intro off isEven fits clear some
    generalize isValue : 65535 - carried (65535 + wordSum data) = value
    have room : off + (octetsOf 2 value).length ≤ data.length := by rwa [octetsOf_length]
    have total := wordSum_overwrite room isEven (by rw [octetsOf_length])
    rw [octetsOf_length, clear, wordSum_two, Nat.mod_eq_of_lt (by omega)] at total
    rw [show wordSum (overwrite data off (octetsOf 2 value)) = _ from total, ← isValue]
    exact carried_complement some

theorem two_chunks_checksum :
    (([[0, 0], [1]] : List Bytes).foldl write 0).toNat = 65535 - onesSum [0, 0, 1] ∧
    onesSum (overwrite [0, 0, 1] 0
      (octetsOf 2 (([[0, 0], [1]] : List Bytes).foldl write 0).toNat)) = 65535 := by
  have sums := writes_internet_checksum [[0, 0], [1]] (by decide) (by decide)
  have some : ∃ octet ∈ ([[0, 0], [1]] : List Bytes).flatten, octet ≠ 0 := ⟨1, by decide, by decide⟩
  exact ⟨sums.1.trans (if_pos some), sums.2 0 (by decide) (by decide) rfl some⟩

end Csum16

end Lemming.Util
