import Mathlib.Logic.Function.Iterate

set_option autoImplicit false

namespace Lemming.Shared.ShiftRegister

variable {w : Nat} (poly : BitVec w)

def shift (c : BitVec w) : BitVec w :=
  if c.getLsbD 0 then (c >>> 1) ^^^ poly else c >>> 1

def feed (c : BitVec w) (bit : Bool) : BitVec w :=
  if c.getLsbD 0 ^^ bit then (c >>> 1) ^^^ poly else c >>> 1

def lowBits {w : Nat} (n : Nat) (v : BitVec w) : List Bool :=
  (List.range n).map v.getLsbD

theorem lowBits_succ (n : Nat) (v : BitVec w) :
    lowBits (n + 1) v = v.getLsbD 0 :: lowBits n (v >>> 1) := by
  rw [lowBits, List.range_succ_eq_map, List.map_cons, List.map_map, lowBits]
  congr 1
  refine List.map_congr_left fun i _ => ?_
  rw [Function.comp_apply, BitVec.getLsbD_ushiftRight, Nat.add_comm]

theorem shift_xor (c v : BitVec w) :
    shift poly (c ^^^ v) = feed poly c (v.getLsbD 0) ^^^ (v >>> 1) := by
  rw [shift, feed, BitVec.getLsbD_xor, BitVec.ushiftRight_xor_distrib]
  split
  · rw [BitVec.xor_assoc, BitVec.xor_assoc, BitVec.xor_comm (v >>> 1)]
  · rfl

theorem iterate_shift_xor (n : Nat) (c v : BitVec w) :
    (shift poly)^[n] (c ^^^ v) = (lowBits n v).foldl (feed poly) c ^^^ (v >>> n) := by
  induction n generalizing c v with
  | zero => simp [lowBits]
  | succ n ih =>
    rw [Function.iterate_succ_apply, shift_xor, ih, lowBits_succ, List.foldl_cons,
      ← BitVec.shiftRight_add, Nat.add_comm 1 n]

theorem iterate_shift_low {n : Nat} {x low : BitVec w} (same : lowBits n low = lowBits n x)
    (short : low >>> n = 0#w) : (shift poly)^[n] x = (x >>> n) ^^^ (shift poly)^[n] low := by
  have whole := iterate_shift_xor poly n 0#w x
  have part := iterate_shift_xor poly n 0#w low
  rw [BitVec.zero_xor] at whole part
  rw [whole, part, same, short, BitVec.xor_zero, BitVec.xor_comm]

end Lemming.Shared.ShiftRegister
