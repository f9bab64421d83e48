import Lemming.Shared.Octets
import Mathlib.Tactic.Ring

set_option autoImplicit false

namespace Lemming.Shared

-- The sum of the 16-bit words a list of octets spells. A last octet without a partner is the high half
-- of a word.
def wordSum : List UInt8 → Nat
  | [] => 0
  | [high] => high.toNat * 256
  | high :: low :: rest => high.toNat * 256 + low.toNat + wordSum rest

theorem wordSum_append {xs ys : List UInt8} (even : 2 ∣ xs.length) :
    wordSum (xs ++ ys) = wordSum xs + wordSum ys := by
  induction xs using wordSum.induct with
  | case1 => simp [wordSum]
  | case2 high =>
    rw [List.length_singleton] at even
    omega
  | case3 high low rest ih =>
    have rest_even : 2 ∣ rest.length := by
      rw [List.length_cons, List.length_cons] at even
      omega
    rw [List.cons_append, List.cons_append, wordSum, wordSum, ih rest_even]
    omega

theorem wordSum_le (xs : List UInt8) : wordSum xs ≤ 65535 * xs.length := by
  induction xs using wordSum.induct with
  | case1 => exact Nat.le_refl _
  | case2 high =>
    have := high.toNat_lt
    rw [wordSum, List.length_singleton]
    omega
  | case3 high low rest ih =>
    have := high.toNat_lt
    have := low.toNat_lt
    rw [wordSum, List.length_cons, List.length_cons]
    omega

theorem wordSum_two (value : Nat) : wordSum (octetsOf 2 value) = value % 65536 := by
  simp only [octetsOf, List.nil_append, List.cons_append, wordSum, UInt8.toNat_ofNat']
  omega

theorem wordSum_overwrite {xs new : List UInt8} {off : Nat} (fits : off + new.length ≤ xs.length)
    (even : 2 ∣ off) (words : 2 ∣ new.length) :
    wordSum (overwrite xs off new) + wordSum (slice xs off new.length) = wordSum xs + wordSum new := by
  have cut (mid : List UInt8) (isWords : 2 ∣ mid.length) (rest : List UInt8) :
      wordSum (xs.take off ++ mid ++ rest) = wordSum (xs.take off) + wordSum mid + wordSum rest := by
    have before : (xs.take off).length = off := by
      rw [List.length_take]
      omega
    rw [List.append_assoc, wordSum_append (by rwa [before]), wordSum_append isWords, Nat.add_assoc]
  have length := slice_length fits
  have whole : xs = xs.take off ++ slice xs off new.length ++ xs.drop (off + new.length) := by
    have same := overwrite_slice fits
    rw [overwrite, length] at same
    exact same.symm
  have total : wordSum xs = wordSum (xs.take off) + wordSum (slice xs off new.length) +
      wordSum (xs.drop (off + new.length)) := by
    rw [← cut _ (by rwa [length]), ← whole]
  rw [overwrite, cut new words, total]
  ring

def carried (sum : Nat) : Nat :=
  if sum = 0 then 0 else (sum - 1) % 65535 + 1

theorem carried_le (sum : Nat) : carried sum ≤ 65535 := by
  unfold carried
  split <;> omega

theorem carried_small {sum : Nat} (small : sum < 65536) : carried sum = sum := by
  unfold carried
  split <;> omega

theorem carried_fold (sum : Nat) : carried (sum % 65536 + sum / 65536) = carried sum := by
  unfold carried
  split <;> split <;> omega

theorem carried_add (a b : Nat) : carried (carried a + b) = carried (a + b) := by
  unfold carried
  split <;> split <;> split <;> omega

-- Addition of 16-bit words with an end-around carry.
def onesAdd (a b : Nat) : Nat := (a + b) % 65536 + (a + b) / 65536

def onesSum : List UInt8 → Nat
  | [] => 0
  | [high] => high.toNat * 256
  | high :: low :: rest => onesAdd (high.toNat * 256 + low.toNat) (onesSum rest)

theorem onesSum_eq (xs : List UInt8) : onesSum xs = carried (wordSum xs) := by
  induction xs using onesSum.induct with
  | case1 => rfl
  | case2 high =>
    have := high.toNat_lt
    rw [onesSum, wordSum, carried_small (by omega)]
  | case3 high low rest ih =>
    have := high.toNat_lt
    have := low.toNat_lt
    have le := carried_le (wordSum rest)
    rw [onesSum, ih, wordSum, Nat.add_comm _ (wordSum rest), ← carried_add]
    generalize carried (wordSum rest) = folded at le ⊢
    rw [← carried_fold, carried_small (by omega), onesAdd, Nat.add_comm folded]

theorem wordSum_eq_zero_iff (xs : List UInt8) : wordSum xs = 0 ↔ ∀ x ∈ xs, x = 0 := by
  have zero (x : UInt8) : x = 0 ↔ x.toNat = 0 := UInt8.toNat_inj.symm
  induction xs using wordSum.induct with
  | case1 => simp [wordSum]
  | case2 high =>
    rw [List.forall_mem_singleton, zero, wordSum]
    omega
  | case3 high low rest ih =>
    rw [List.forall_mem_cons, List.forall_mem_cons, zero, zero, wordSum]
    exact Iff.trans (by omega) (and_congr_right fun _ => and_congr_right fun _ => ih)

theorem carried_top_iff (sum : Nat) : carried (65535 + sum) = 65535 ↔ 65535 ∣ sum := by
  unfold carried
  split <;> omega

theorem carried_complement {sum : Nat} (nonzero : sum ≠ 0) :
    carried (sum + (65535 - carried (65535 + sum))) = 65535 := by
  unfold carried
  split <;> split <;> omega

end Lemming.Shared
