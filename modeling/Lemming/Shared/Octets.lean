import Mathlib.Algebra.Order.Ring.Nat
import Mathlib.Data.List.Induction

set_option autoImplicit false

namespace Lemming.Shared

def octetsValue (octets : List UInt8) : Nat :=
  octets.foldl (fun value octet => value * 256 + octet.toNat) 0

def octetsOf : Nat → Nat → List UInt8
  | 0, _ => []
  | n + 1, value => octetsOf n (value / 256) ++ [UInt8.ofNat value]

@[simp] theorem octetsOf_length (n value : Nat) : (octetsOf n value).length = n := by
  induction n generalizing value with
  | zero => rfl
  | succ n ih => simp [octetsOf, ih]

theorem octetsValue_concat (octets : List UInt8) (last : UInt8) :
    octetsValue (octets ++ [last]) = octetsValue octets * 256 + last.toNat := by
  simp [octetsValue]

theorem octetsValue_octetsOf (n value : Nat) :
    octetsValue (octetsOf n value) = value % 256 ^ n := by
  induction n generalizing value with
  | zero => simp [octetsOf, octetsValue, Nat.mod_one]
  | succ n ih =>
    have last : (UInt8.ofNat value).toNat = value % 256 := UInt8.toNat_ofNat'
    rw [octetsOf, octetsValue_concat, ih, last, pow_succ', Nat.mod_mul, Nat.mul_comm, Nat.add_comm]

theorem octetsOf_octetsValue (octets : List UInt8) :
    octetsOf octets.length (octetsValue octets) = octets := by
  induction octets using List.reverseRecOn with
  | nil => rfl
  | append_singleton octets last ih =>
    have below : last.toNat < 256 := last.toNat_lt
    have high : (octetsValue octets * 256 + last.toNat) / 256 = octetsValue octets := by omega
    rw [List.length_append, List.length_singleton, octetsOf, octetsValue_concat, high, ih]
    congr 2
    rw [← UInt8.toNat_inj, UInt8.toNat_ofNat']
    omega

theorem octetsOf_congr {n value value' : Nat} (same : value % 256 ^ n = value' % 256 ^ n) :
    octetsOf n value = octetsOf n value' := by
  have back (value : Nat) : octetsOf n (value % 256 ^ n) = octetsOf n value := by
    have whole := octetsOf_octetsValue (octetsOf n value)
    rwa [octetsOf_length, octetsValue_octetsOf] at whole
  rw [← back value, same, back]

theorem octetsValue_lt (octets : List UInt8) : octetsValue octets < 256 ^ octets.length := by
  rw [← octetsOf_octetsValue octets, octetsValue_octetsOf, octetsOf_length]
  exact Nat.mod_lt _ (Nat.pow_pos (by decide))

section Slices

variable {α : Type}

def slice (xs : List α) (off n : Nat) : List α :=
  (xs.drop off).take n

def overwrite (xs : List α) (off : Nat) (new : List α) : List α :=
  xs.take off ++ new ++ xs.drop (off + new.length)

variable {xs : List α} {off n : Nat}

theorem slice_length (fits : off + n ≤ xs.length) :
    (slice xs off n).length = n := by
  simp [slice]
  omega

theorem slice_getElem? (xs : List α) (off n i : Nat) :
    (slice xs off n)[i]? = if i < n then xs[off + i]? else none := by
  simp [slice, List.getElem?_take]

theorem slice_append (fits : off + n ≤ xs.length) (rest : List α) :
    slice (xs ++ rest) off n = slice xs off n := by
  refine List.ext_getElem? fun i => ?_
  rw [slice_getElem?, slice_getElem?]
  split
  · rw [List.getElem?_append_left (by omega)]
  · rfl

variable {new : List α}

section

variable (fits : off + new.length ≤ xs.length)
include fits

theorem overwrite_getElem? (i : Nat) :
    (overwrite xs off new)[i]? = if off ≤ i ∧ i < off + new.length then new[i - off]? else xs[i]? := by
  have before : (xs.take off).length = off := by
    rw [List.length_take]
    omega
  rw [overwrite, List.append_assoc]
  rcases Nat.lt_or_ge i off with low | high
  · rw [List.getElem?_append_left (by omega), List.getElem?_take, if_pos low, if_neg (by omega)]
  · rw [List.getElem?_append_right (by omega), before]
    rcases Nat.lt_or_ge i (off + new.length) with inside | after
    · rw [List.getElem?_append_left (by omega), if_pos ⟨high, inside⟩]
    · rw [List.getElem?_append_right (by omega), List.getElem?_drop, if_neg (by omega)]
      congr 1
      omega

theorem overwrite_length :
    (overwrite xs off new).length = xs.length := by
  simp [overwrite]
  omega

theorem slice_overwrite_self :
    slice (overwrite xs off new) off new.length = new := by
  refine List.ext_getElem? fun i => ?_
  rw [slice_getElem?, overwrite_getElem? fits]
  split
  · rw [if_pos (by omega), Nat.add_sub_cancel_left]
  · rw [List.getElem?_eq_none (by omega)]

theorem slice_overwrite_apart {other : Nat}
    (apart : other + n ≤ off ∨ off + new.length ≤ other) :
    slice (overwrite xs off new) other n = slice xs other n := by
  refine List.ext_getElem? fun i => ?_
  rw [slice_getElem?, slice_getElem?, overwrite_getElem? fits]
  split
  · rw [if_neg (by omega)]
  · rfl

end

theorem overwrite_slice (fits : off + n ≤ xs.length) :
    overwrite xs off (slice xs off n) = xs := by
  have length := slice_length fits
  refine List.ext_getElem? fun i => ?_
  rw [overwrite_getElem? (by omega), length]
  split
  · rw [slice_getElem?, if_pos (by omega)]
    congr 1
    omega
  · rfl

theorem overwrite_same (fits : off + new.length ≤ xs.length)
    (here : slice xs off new.length = new) : overwrite xs off new = xs := by
  have same := overwrite_slice fits
  rwa [here] at same

theorem overwrite_overwrite {new' : List α} (fits : off + new.length ≤ xs.length)
    (same : new'.length = new.length) :
    overwrite (overwrite xs off new) off new' = overwrite xs off new' := by
  refine List.ext_getElem? fun i => ?_
  have fits' : off + new'.length ≤ xs.length := by omega
  rw [overwrite_getElem? (by rwa [overwrite_length fits]), overwrite_getElem? fits,
    overwrite_getElem? fits', same]
  split <;> rfl

theorem slice_slice {off' n' : Nat} (inside : off' + n' ≤ n) :
    slice (slice xs off n) off' n' = slice xs (off + off') n' := by
  refine List.ext_getElem? fun i => ?_
  rw [slice_getElem?, slice_getElem?, slice_getElem?]
  split
  · rw [if_pos (by omega), Nat.add_assoc]
  · rfl

theorem slice_overwrite_inside {off' : Nat} (fits : off + n ≤ xs.length)
    (inside : off' + new.length ≤ n) :
    slice (overwrite xs (off + off') new) off n = overwrite (slice xs off n) off' new := by
  have length := slice_length fits
  refine List.ext_getElem? fun i => ?_
  rw [slice_getElem?, overwrite_getElem? (by omega), overwrite_getElem? (by omega), slice_getElem?]
  by_cases covered : off' ≤ i ∧ i < off' + new.length
  · rw [if_pos (by omega), if_pos (by omega), if_pos covered]
    congr 1
    omega
  · rw [if_neg covered]
    split
    · rw [if_neg (by omega)]
    · rfl

end Slices

section Puts

variable {octets : List UInt8} {off n value : Nat}

def put (octets : List UInt8) (off n value : Nat) : List UInt8 :=
  overwrite octets off (octetsOf n value)

variable (fits : off + n ≤ octets.length)

include fits

theorem put_length : (put octets off n value).length = octets.length :=
  overwrite_length (by rwa [octetsOf_length])

theorem slice_put : slice (put octets off n value) off n = octetsOf n value := by
  have fits' : off + (octetsOf n value).length ≤ octets.length := by rwa [octetsOf_length]
  have same := slice_overwrite_self fits'
  rwa [octetsOf_length] at same

theorem slice_put_apart {other width : Nat} (apart : other + width ≤ off ∨ off + n ≤ other) :
    slice (put octets off n value) other width = slice octets other width :=
  slice_overwrite_apart (by rwa [octetsOf_length]) (by rwa [octetsOf_length])

theorem put_put (value' : Nat) :
    put (put octets off n value) off n value' = put octets off n value' :=
  overwrite_overwrite (by rwa [octetsOf_length]) (by rw [octetsOf_length, octetsOf_length])

theorem put_same (here : slice octets off n = octetsOf n value) : put octets off n value = octets :=
  overwrite_same (by rwa [octetsOf_length]) (by rwa [octetsOf_length])

end Puts

end Lemming.Shared
