import Mathlib.Data.List.Nodup

set_option autoImplicit false

namespace Lemming.Shared

variable {α : Type}

theorem front_unique [DecidableEq α] {c : α} {front front' back back' : List α} (apart : c ∉ front)
    (apart' : c ∉ front') (starts : ∀ d ∈ back.head?, d = c) (starts' : ∀ d ∈ back'.head?, d = c)
    (same : front ++ back = front' ++ back') : front = front' ∧ back = back' := by
  have taken {front back : List α} (apart : c ∉ front) (starts : ∀ d ∈ back.head?, d = c) :
      (front ++ back).takeWhile (· ≠ c) = front := by
    rw [List.takeWhile_append_of_pos fun d member => by simpa using ne_of_mem_of_not_mem member apart]
    cases back with
    | nil => simp
    | cons d back => simp [starts d rfl]
  obtain rfl : front = front' := by rw [← taken apart starts, same, taken apart' starts']
  exact ⟨rfl, List.append_cancel_left same⟩

theorem split_append {x : α} {front back left right : List α}
    (same : left ++ right = front ++ x :: back) :
    (∃ between, left = front ++ x :: between ∧ back = between ++ right) ∨
      ∃ between, front = left ++ between ∧ right = between ++ x :: back := by
  rcases List.append_eq_append_iff.mp same with ⟨between, rfl, isRight⟩ | ⟨between, rfl, isLeft⟩
  · exact Or.inr ⟨between, rfl, isRight⟩
  · cases between with
    | nil => exact Or.inr ⟨[], by simp, isLeft.symm⟩
    | cons y between =>
      obtain ⟨rfl, rfl⟩ := List.cons.inj isLeft
      exact Or.inl ⟨between, rfl, rfl⟩

def cut (l : List α) (start : Int) (count : Nat) : Option (List α) :=
  if 0 ≤ start ∧ start + count ≤ l.length then
    some (l.take start.toNat ++ l.drop (start.toNat + count))
  else none

theorem cut_segment (front own back : List α) :
    cut (front ++ own ++ back) front.length own.length = some (front ++ back) := by
  have inside : (0 : Int) ≤ front.length ∧
      (front.length : Int) + own.length ≤ (front ++ own ++ back).length := by
    simp only [List.length_append]
    omega
  have tail : (front ++ (own ++ back)).drop (front.length + own.length) = back := by
    rw [← List.drop_drop, List.drop_left, List.drop_left]
  rw [cut, if_pos inside, Int.toNat_natCast, List.append_assoc, List.take_left, tail]

end Lemming.Shared
