import Mathlib.Data.List.Basic

set_option autoImplicit false

namespace Lemming.Shared

variable (byte : UInt8)

def byteBits : List Bool :=
  (List.range 8).map fun i => byte.toNat.testBit (7 - i)

variable (bytes : List UInt8)

def bitString : List Bool :=
  bytes.flatMap byteBits

@[simp] theorem byteBits_length : (byteBits byte).length = 8 := by
  simp [byteBits]

@[simp] theorem bitString_nil : bitString [] = [] := rfl

@[simp] theorem bitString_cons (rest : List UInt8) :
    bitString (byte :: rest) = byteBits byte ++ bitString rest := rfl

@[simp] theorem bitString_length :
    (bitString bytes).length = 8 * bytes.length := by
  induction bytes with
  | nil => rfl
  | cons byte rest ih =>
    simp only [bitString_cons, List.length_append, byteBits_length, ih, List.length_cons]
    omega

theorem bitString_append (first second : List UInt8) :
    bitString (first ++ second) = bitString first ++ bitString second :=
  List.flatMap_append

theorem byteBits_getElem? (i : Nat) (bound : i < 8) :
    (byteBits byte)[i]? = some (byte.toNat.testBit (7 - i)) := by
  simp [byteBits, List.getElem?_range bound]

theorem bitString_getElem? (pos : Nat) :
    (bitString bytes)[pos]? = bytes[pos / 8]?.map fun byte => byte.toNat.testBit (7 - pos % 8) := by
  induction bytes generalizing pos with
  | nil => simp
  | cons byte rest ih =>
    by_cases first : pos < 8
    · have zero : pos / 8 = 0 := by omega
      have same : pos % 8 = pos := by omega
      rw [bitString_cons, List.getElem?_append_left (by simpa using first),
        byteBits_getElem? byte pos first, zero, same]
      rfl
    · have later : pos / 8 = (pos - 8) / 8 + 1 := by omega
      have same : (pos - 8) % 8 = pos % 8 := by omega
      rw [bitString_cons, List.getElem?_append_right (by simp; omega), byteBits_length, ih, later,
        same, List.getElem?_cons_succ]

theorem shifted_bit (pos : Nat) (bound : pos < 8) :
    ((byte >>> UInt8.ofNat pos) &&& 1 == 1) = byte.toNat.testBit pos := by
  have small : pos % 256 % 8 = pos := by omega
  rw [Bool.eq_iff_iff, beq_iff_eq, ← UInt8.toNat_inj]
  simp [small, Nat.testBit, Nat.and_comm]

theorem mask_bit (pos i : Nat) (bound : pos < 8) :
    ((1 : UInt8) <<< UInt8.ofNat pos).toNat.testBit i = decide (i = pos) := by
  have small : pos % 256 % 8 = pos := by omega
  have fits : 2 ^ pos < 2 ^ 8 := Nat.pow_lt_pow_right (by omega) bound
  have value : ((1 : UInt8) <<< UInt8.ofNat pos).toNat = 2 ^ pos := by
    have shift : (UInt8.ofNat pos).toNat % 8 = pos := by simpa using small
    rw [UInt8.toNat_shiftLeft, shift, UInt8.toNat_one, Nat.shiftLeft_eq, Nat.one_mul,
      Nat.mod_eq_of_lt fits]
  rw [value, Nat.testBit_two_pow]
  simp [eq_comm]

theorem complement_bit (word : UInt8) (i : Nat) (bound : i < 8) :
    (~~~word).toNat.testBit i = !word.toNat.testBit i := by
  rw [← UInt8.toNat_toBitVec, ← UInt8.toNat_toBitVec, UInt8.toBitVec_not, BitVec.testBit_toNat,
    BitVec.testBit_toNat, BitVec.getLsbD_not]
  simp [bound]

theorem byteBits_set (i : Nat) (bound : i < 8) (value : Bool) :
    byteBits (if value then byte ||| 1 <<< UInt8.ofNat (7 - i)
      else byte &&& ~~~(1 <<< UInt8.ofNat (7 - i))) = (byteBits byte).set i value := by
  apply List.ext_getElem? (fun j => ?_)
  by_cases within : j < 8
  · have mask := mask_bit (7 - i) (7 - j) (by omega)
    have negated := complement_bit (1 <<< UInt8.ofNat (7 - i)) (7 - j) (by omega)
    have position : (7 - j = 7 - i) ↔ i = j := by omega
    rw [byteBits_getElem? _ j within, List.getElem?_set, byteBits_getElem? _ j within,
      byteBits_length]
    cases value <;>
      simp only [Bool.false_eq_true, if_true, if_false, UInt8.toNat_or, UInt8.toNat_and,
        Nat.testBit_or, Nat.testBit_and, mask, negated, position] <;>
      by_cases same : i = j <;> simp [within, same]
  · rw [List.getElem?_eq_none (by simpa using within), List.getElem?_eq_none (by simpa using within)]

theorem bitString_set (pos : Nat) (byte : UInt8) (value : Bool)
    (present : bytes[pos / 8]? = some byte) :
    bitString (bytes.set (pos / 8) (if value then byte ||| 1 <<< UInt8.ofNat (7 - pos % 8)
      else byte &&& ~~~(1 <<< UInt8.ofNat (7 - pos % 8)))) = (bitString bytes).set pos value := by
  induction bytes generalizing pos with
  | nil => simp at present
  | cons first rest ih =>
    by_cases head : pos < 8
    · have zero : pos / 8 = 0 := by omega
      have same : pos % 8 = pos := by omega
      rw [zero] at present ⊢
      obtain rfl : first = byte := by simpa using present
      rw [List.set_cons_zero, bitString_cons, bitString_cons, same, byteBits_set first pos head,
        List.set_append_left _ _ (by simpa using head)]
    · have later : pos / 8 = (pos - 8) / 8 + 1 := by omega
      have same : pos % 8 = (pos - 8) % 8 := by omega
      rw [later, List.getElem?_cons_succ] at present
      rw [later, List.set_cons_succ, bitString_cons, bitString_cons, same, ih _ present,
        List.set_append_right _ _ (by simp; omega), byteBits_length]

theorem byteBits_injective {first second : UInt8} (same : byteBits first = byteBits second) :
    first = second := by
  rw [← UInt8.toNat_inj]
  apply Nat.eq_of_testBit_eq
  intro i
  by_cases within : i < 8
  · have bit := congrArg (·[7 - i]?) same
    have position : 7 - (7 - i) = i := by omega
    simp only [byteBits_getElem? _ (7 - i) (by omega), position, Option.some_inj] at bit
    exact bit
  · have large : 2 ^ 8 ≤ 2 ^ i := Nat.pow_le_pow_right (by omega) (by omega)
    rw [Nat.testBit_lt_two_pow (Nat.lt_of_lt_of_le first.toNat_lt large),
      Nat.testBit_lt_two_pow (Nat.lt_of_lt_of_le second.toNat_lt large)]

theorem bitString_injective {first second : List UInt8}
    (same : bitString first = bitString second) : first = second := by
  induction first generalizing second with
  | nil =>
    have size := congrArg List.length same
    simp only [bitString_length, List.length_nil] at size
    exact (List.length_eq_zero_iff.mp (by omega)).symm
  | cons byte rest ih =>
    cases second with
    | nil => cases same
    | cons byte' rest' =>
      rw [bitString_cons, bitString_cons] at same
      obtain ⟨head, tail⟩ := List.append_inj same (by simp)
      rw [byteBits_injective head, ih tail]

def AgreeUnder (mask first second : List Bool) : Prop :=
  ∀ i : Nat, mask[i]? = some true → first[i]? = second[i]?

def IsRun (mask : List Bool) : Prop :=
  mask = List.replicate (mask.count true) true ++ List.replicate (mask.count false) false

variable {mask first second : List Bool}

instance : Decidable (AgreeUnder mask first second) :=
  decidable_of_iff (∀ i < mask.length, mask[i]? = some true → first[i]? = second[i]?)
    ⟨fun inside i one => inside i (List.getElem?_eq_some_iff.mp one).1 one, fun agree i _ => agree i⟩

instance : Decidable (IsRun mask) :=
  inferInstanceAs (Decidable (_ = _))

theorem isRun_ones_append (n : Nat) : IsRun (List.replicate n true ++ mask) ↔ IsRun mask := by
  have ones : (List.replicate n true ++ mask).count true = n + mask.count true := by simp
  have zeroes : (List.replicate n true ++ mask).count false = mask.count false := by
    simp [List.count_replicate]
  rw [IsRun, ones, zeroes, List.replicate_add, List.append_assoc, List.append_cancel_left_eq]
  rfl

theorem run_getElem? (ones zeroes i : Nat) :
    (List.replicate ones true ++ List.replicate zeroes false)[i]? = some true ↔ i < ones := by
  by_cases within : i < ones
  · simp [List.getElem?_append_left, within]
  · rw [List.getElem?_append_right (by simpa using within), List.getElem?_replicate]
    simp [within]

theorem agreeUnder_iff_take (run : IsRun mask) :
    AgreeUnder mask first second ↔
      first.take (mask.count true) = second.take (mask.count true) := by
  have bit (i : Nat) : mask[i]? = some true ↔ i < mask.count true := by
    nth_rewrite 1 [run]
    exact run_getElem? _ _ i
  rw [List.ext_getElem?_iff]
  unfold AgreeUnder
  refine forall_congr' fun i => ?_
  rw [bit, List.getElem?_take, List.getElem?_take]
  by_cases within : i < mask.count true
  · simp [within]
  · simp [within]

theorem exists_zero_of_not_isRun (not : ¬ IsRun mask) :
    ∃ i, i < mask.count true ∧ mask[i]? = some false := by
  by_contra none
  push Not at none
  apply not
  have short : mask.count true ≤ mask.length := List.count_le_length
  have front : mask.take (mask.count true) = List.replicate (mask.count true) true := by
    refine List.eq_replicate_iff.mpr ⟨by simp [short], fun b member => ?_⟩
    obtain ⟨i, bound, found⟩ := List.getElem_of_mem member
    rw [List.getElem_take] at found
    have within : i < mask.count true := by
      rw [List.length_take] at bound
      omega
    cases b with
    | true => rfl
    | false => exact absurd (List.getElem?_eq_some_iff.mpr ⟨_, found⟩) (none i within)
  -- The front has all the ones already.
  have split : mask.count true = (mask.take (mask.count true)).count true +
      (mask.drop (mask.count true)).count true := by
    rw [← List.count_append, List.take_append_drop]
  rw [front, List.count_replicate_self] at split
  have back : mask.drop (mask.count true) =
      List.replicate (mask.drop (mask.count true)).length false := by
    refine List.eq_replicate_iff.mpr ⟨rfl, fun b member => ?_⟩
    cases b with
    | false => rfl
    | true =>
      have counted := List.count_pos_iff.mpr member
      omega
  have whole : mask = List.replicate (mask.count true) true ++
      List.replicate (mask.drop (mask.count true)).length false := by
    nth_rewrite 1 [← List.take_append_drop (mask.count true) mask, front, back]
    rfl
  have zeroes : mask.count false = (mask.drop (mask.count true)).length := by
    nth_rewrite 1 [whole]
    simp [List.count_replicate]
  rw [IsRun, zeroes]
  exact whole

theorem isRun_of_full (full : mask.count true = mask.length) : IsRun mask := by
  have ones : mask = List.replicate mask.length true :=
    List.eq_replicate_iff.mpr ⟨rfl, fun b member => (List.count_eq_length.mp full b member).symm⟩
  have zeroes : mask.count false = 0 := by
    rw [ones]
    simp [List.count_replicate]
  rw [IsRun, zeroes, full, List.replicate_zero, List.append_nil]
  exact ones

theorem exists_flip_of_not_isRun (not : ¬ IsRun mask) {value : List Bool}
    (same : mask.length = value.length) :
    ∃ i b, i < value.length ∧ AgreeUnder mask value (value.set i b) ∧
      value.take (mask.count true) ≠ (value.set i b).take (mask.count true) := by
  obtain ⟨i, early, zero⟩ := exists_zero_of_not_isRun not
  have within : i < value.length := by
    have bound := (List.getElem?_eq_some_iff.mp zero).1
    omega
  refine ⟨i, !value[i], within, ?_, ?_⟩
  · intro j one
    have other : i ≠ j := by
      rintro rfl
      rw [zero] at one
      cases one
    rw [List.getElem?_set_ne other]
  · intro equal
    have bit := congrArg (fun l => l[i]?) equal
    simp [early, within] at bit

end Lemming.Shared
