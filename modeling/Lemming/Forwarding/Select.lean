import Lemming.Action.Process
import Lemming.Forwarding.Action
import Mathlib.Algebra.Order.BigOperators.Group.List

set_option autoImplicit false

namespace Lemming.Forwarding

open Packet Shared

-- The hash functions of the select action. A random number is a non-negative `int`.
structure Hashes where
  crc32 : Bytes → UInt32
  crc16 : Bytes → UInt16
  random : Fin (2 ^ 63)

def Hashes.hashFn (hashes : Hashes) : SelectAlgorithm → Option (Bytes → Nat)
  | .crc32 => some fun key => (hashes.crc32 key).toNat
  | .crc16 => some fun key => (hashes.crc16 key).toNat
  | .random => some fun _ => hashes.random
  | .unspecified => none

section Processing

variable (hashes : Hashes) (packet : FieldID → Option Bytes) (hash : SelectAlgorithm)
  (fields : List FieldID)

def selectKey : Bytes :=
  fields.flatMap fun id => (packet id).getD []

def indexLoop (h : Int) : List Int → Nat → Nat → Nat
  | [], _, index => index
  | w :: rest, i, _ => if h < w then i else indexLoop h rest (i + 1) i

def selectIndex (hashFn : Bytes → Nat) (weightBounds : List Int) (weightSum : UInt64) : Outcome Nat :=
  -- The remainder of a division by zero.
  if goInt weightSum = 0 then .panic
  else
    let h := (hashFn (selectKey packet fields) : Int).tmod (goInt weightSum)
    .ok (indexLoop h weightBounds 0 0)

def processSelect (set : List (List Action)) (weightBounds : List Int) (weightSum : UInt64) :
    Outcome (List Action × Lemming.Action.State) :=
  match hashes.hashFn hash with
  | none => .ok ([], .DROP)
  | some hashFn => do
    let index ← selectIndex packet fields hashFn weightBounds weightSum
    match set[index]? with
    | none => .panic
    | some a => return (a, .CONTINUE)

end Processing

def effective (weights : List UInt64) : List Nat :=
  if weights.all (· == 0) then weights.map fun _ => 1 else weights.map UInt64.toNat

def startOf (weights : List UInt64) (i : Nat) : Nat :=
  ((effective weights).take i).sum

section Weights

variable {weights : List UInt64}

theorem effective_length (weights : List UInt64) : (effective weights).length = weights.length := by
  unfold effective
  split <;> simp

theorem startOf_mono (weights : List UInt64) : Monotone (startOf weights) := by
  refine monotone_nat_of_le_succ fun i => ?_
  rw [startOf, startOf, List.take_add_one, List.sum_append]
  exact Nat.le_add_right _ _

theorem goInt_small {n : UInt64} (small : n.toNat < 2 ^ 63) : goInt n = n.toNat := by
  rw [goInt, BitVec.toInt_eq_toNat_of_lt] <;> simp [UInt64.toNat_toBitVec]
  omega

theorem addWeights_small (weights : List UInt64) (bounds : List Int) (sum : UInt64)
    (small : sum.toNat + (weights.map UInt64.toNat).sum < 2 ^ 63) :
    (addWeights weights (bounds, sum)).1 = bounds ++ (List.range weights.length).map
        (fun i : Nat => ((sum.toNat + ((weights.map UInt64.toNat).take (i + 1)).sum : Nat) : Int)) ∧
      (addWeights weights (bounds, sum)).2.toNat = sum.toNat + (weights.map UInt64.toNat).sum := by
  induction weights generalizing bounds sum with
  | nil => simp [addWeights]
  | cons weight rest ih =>
    rw [List.map_cons, List.sum_cons] at small
    have next : (sum + weight).toNat = sum.toNat + weight.toNat := by
      rw [UInt64.toNat_add]
      exact Nat.mod_eq_of_lt (by omega)
    obtain ⟨listed, total⟩ := ih (bounds ++ [goInt (weight + sum)]) (sum + weight) (by omega)
    rw [addWeights, listed, total, next, UInt64.add_comm, goInt_small (by omega), next]
    refine ⟨?_, by simp [Nat.add_assoc]⟩
    rw [List.length_cons, List.range_succ_eq_map, List.map_cons, List.map_map, List.append_assoc]
    simp [Function.comp_def, Nat.add_assoc]

theorem shares_small (small : startOf weights weights.length < 2 ^ 63) :
    (shares weights).1 = (List.range weights.length).map
        (fun i : Nat => (startOf weights (i + 1) : Int)) ∧
      (shares weights).2.toNat = startOf weights weights.length := by
  unfold shares
  unfold startOf effective at small ⊢
  split
  · next zero =>
    rw [if_pos zero] at small
    simp only [List.map_const', List.take_replicate, List.sum_replicate] at small ⊢
    refine ⟨List.map_congr_left fun i member => ?_, ?_⟩
    · have inside := List.mem_range.mp member
      simp
      omega
    · simp at small ⊢
      omega
  · next some =>
    rw [if_neg some, List.take_of_length_le (by simp)] at small
    rw [List.take_of_length_le (by simp)]
    simpa using addWeights_small weights [] 0 (by simpa using small)

theorem startOf_pos (nonempty : weights ≠ []) : 0 < startOf weights weights.length := by
  have positive : ∃ n ∈ effective weights, 0 < n := by
    unfold effective
    split
    · obtain ⟨w, member⟩ := List.exists_mem_of_ne_nil weights nonempty
      exact ⟨1, List.mem_map.mpr ⟨w, member, rfl⟩, Nat.one_pos⟩
    · next some =>
      obtain ⟨w, member, isSome⟩ : ∃ w ∈ weights, w ≠ 0 := by simpa using some
      refine ⟨w.toNat, List.mem_map_of_mem member, Nat.pos_of_ne_zero fun zero => isSome ?_⟩
      exact UInt64.toNat_inj.mp zero
  obtain ⟨n, member, positive⟩ := positive
  rw [startOf, ← effective_length, List.take_length]
  exact Nat.lt_of_lt_of_le positive (List.single_le_sum (fun _ _ => Nat.zero_le _) n member)

theorem indexLoop_spec (start : Nat → Nat) (h k i index : Nat) (low : start i ≤ h)
    (high : h < start (i + k)) :
    ∃ j < i + k, indexLoop h ((List.range' i k).map fun j => (start (j + 1) : Int)) i index = j ∧
      start j ≤ h ∧ h < start (j + 1) := by
  induction k generalizing i index with
  | zero =>
    rw [Nat.add_zero] at high
    omega
  | succ k ih =>
    rw [List.range'_succ, List.map_cons, indexLoop]
    by_cases below : h < start (i + 1)
    · exact ⟨i, by omega, by rw [if_pos (by exact_mod_cast below)], low, below⟩
    · obtain ⟨j, inside, found, interval⟩ := ih (i + 1) i (by omega) (by rwa [Nat.add_right_comm])
      exact ⟨j, by omega, by rw [if_neg (by exact_mod_cast below), found], interval⟩

theorem interval_unique {h i j : Nat} (first : startOf weights i ≤ h) (last : h < startOf weights (i + 1))
    (first' : startOf weights j ≤ h) (last' : h < startOf weights (j + 1)) : i = j := by
  have below {m n : Nat} (low : startOf weights m ≤ h) (high : h < startOf weights (n + 1)) : m ≤ n := by
    by_contra above
    have := startOf_mono weights (show n + 1 ≤ m by omega)
    omega
  exact Nat.le_antisymm (below first last') (below first' last)

end Weights

theorem newChoices_getElem? {objects : Objects} {actionLists : List (UInt64 × List ActionDesc)}
    {choices : List (List Action)} (built : newChoices objects actionLists = .ok choices) {i : Nat}
    {list : UInt64 × List ActionDesc} (present : actionLists[i]? = some list) :
    ∃ actions, newActions objects list.2 = .ok actions ∧ choices[i]? = some actions := by
  induction actionLists generalizing i choices with
  | nil => cases present
  | cons first rest ih =>
    rw [newChoices] at built
    split at built
    · cases built
    · next actions head =>
      split at built <;> cases built
      next tail =>
      cases i with
      | zero =>
        cases present
        exact ⟨actions, head, rfl⟩
      | succ i => exact ih tail present

section

variable {objects : Objects} {algorithm hash : SelectAlgorithm}
  {fieldIds : List PacketFieldId} {actionLists : List (UInt64 × List ActionDesc)}
  {fields : List FieldID} {set : List (List Action)} {weightBounds : List Int} {weightSum : UInt64}
  (built : newAction objects (.selectAction algorithm fieldIds actionLists) =
    .ok (some (.selectActionList hash fields set weightBounds weightSum)))
include built

theorem newAction_select :
    hash ≠ .unspecified ∧ newChoices objects actionLists = .ok set ∧
      shares (actionLists.map Prod.fst) = (weightBounds, weightSum) := by
  simp only [newAction] at built
  split at built
  · cases built
  · next known =>
    split at built
    · cases built
    · next choices isSet =>
      cases built
      exact ⟨known, isSet, rfl⟩

theorem select_picks_interval (nonempty : actionLists ≠ [])
    (small : startOf (actionLists.map Prod.fst) actionLists.length < 2 ^ 63)
    (hashes : Hashes) (packet : FieldID → Option Bytes) :
    ∃ hashFn h, hashes.hashFn hash = some hashFn ∧
      h = hashFn (selectKey packet fields) % startOf (actionLists.map Prod.fst) actionLists.length ∧
      (∀ i, selectIndex packet fields hashFn weightBounds weightSum = .ok i ↔
        i < actionLists.length ∧ startOf (actionLists.map Prod.fst) i ≤ h ∧
          h < startOf (actionLists.map Prod.fst) (i + 1)) ∧
      (∃ i list actions, selectIndex packet fields hashFn weightBounds weightSum = .ok i ∧
        actionLists[i]? = some list ∧ newActions objects list.2 = .ok actions ∧
        processSelect hashes packet hash fields set weightBounds weightSum =
          .ok (actions, .CONTINUE) ∧
        ((∃ other ∈ actionLists, other.1 ≠ 0) → list.1 ≠ 0)) := by
  obtain ⟨weights, isWeights⟩ : ∃ weights, weights = actionLists.map Prod.fst := ⟨_, rfl⟩
  have size : weights.length = actionLists.length := by rw [isWeights, List.length_map]
  rw [← isWeights] at small ⊢
  rw [← size] at small
  obtain ⟨known, isSet, isShares⟩ := newAction_select built
  obtain ⟨hashFn, isFn⟩ : ∃ hashFn, hashes.hashFn hash = some hashFn := by
    cases hash with
    | unspecified => exact absurd rfl known
    | _ => exact ⟨_, rfl⟩
  obtain ⟨bounds, sum⟩ := shares_small small
  rw [← isWeights] at isShares
  simp only [isShares] at bounds sum
  have positive := startOf_pos (show weights ≠ [] by simpa [isWeights] using nonempty)
  have total : goInt weightSum = startOf weights weights.length := by
    rw [goInt_small (by omega), sum]
  generalize isHash : hashFn (selectKey packet fields) %
    startOf weights weights.length = h
  have below : h < startOf weights weights.length := isHash ▸ Nat.mod_lt _ positive
  obtain ⟨j, inside, found, low, high⟩ := indexLoop_spec (startOf weights) h weights.length 0 0
    (Nat.zero_le h) (by rwa [Nat.zero_add])
  rw [← List.range_eq_range', ← bounds] at found
  rw [Nat.zero_add, size] at inside
  have chosen : selectIndex packet fields hashFn weightBounds weightSum = .ok j := by
    rw [selectIndex, total, if_neg (by omega), ← Int.ofNat_tmod, isHash]
    exact congrArg _ found
  refine ⟨hashFn, h, isFn, by rw [← size, isHash], fun i => ?_, ?_⟩
  · rw [chosen]
    constructor
    · intro same
      cases same
      exact ⟨inside, low, high⟩
    · rintro ⟨-, low', high'⟩
      rw [interval_unique low high low' high']
  · have present := List.getElem?_eq_getElem inside
    obtain ⟨actions, made, picked⟩ := newChoices_getElem? isSet present
    refine ⟨j, _, actions, chosen, present, made, ?_, fun ⟨other, member, weighted⟩ zero => ?_⟩
    · rw [processSelect, isFn]
      simp only [chosen, Outcome.ok_bind, picked]
      rfl
    · -- The interval of a list without weight is empty.
      have some : weights.all (· == 0) ≠ true := by
        rw [isWeights]
        intro all
        exact weighted (by simpa using List.all_eq_true.mp all other.1 (List.mem_map_of_mem member))
      have empty : startOf weights (j + 1) = startOf weights j := by
        rw [startOf, startOf, effective, if_neg some, List.take_add_one, List.getElem?_map,
          isWeights, List.getElem?_map, present]
        simp [zero]
      omega

end

def threeLists : List (UInt64 × List ActionDesc) :=
  [(1, [.dropAction]), (0, []), (3, [.continueAction])]

theorem select_picks_interval_three :
    ∃ hashFn, (⟨fun _ => 0, fun _ => 0, 7⟩ : Hashes).hashFn .random = some hashFn ∧
      selectIndex (fun _ => none) [] hashFn [1, 1, 4] 4 = .ok 2 := by
  obtain ⟨hashFn, h, isFn, isHash, picks, -⟩ := @select_picks_interval default .random .random []
    threeLists [] [[.drop], [], []] [1, 1, 4] 4
    (by simp [newAction, newChoices, newActions, threeLists, shares, addWeights, goInt])
    (by decide) (by decide)
    ⟨fun _ => 0, fun _ => 0, 7⟩ fun _ => none
  refine ⟨hashFn, isFn, (picks 2).mpr ?_⟩
  cases isFn
  rw [isHash]
  decide

end Lemming.Forwarding
