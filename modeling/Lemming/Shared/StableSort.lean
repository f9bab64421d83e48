import Mathlib.Data.List.Sort

set_option autoImplicit false

namespace Lemming.Shared

variable {α : Type} (key : α → Nat)

def sortByKey (xs : List α) : List α :=
  xs.insertionSort fun a b => key a ≤ key b

instance total_key : Std.Total fun a b : α => key a ≤ key b :=
  ⟨fun a b => Nat.le_total (key a) (key b)⟩

instance trans_key : IsTrans α fun a b => key a ≤ key b :=
  ⟨fun _ _ _ => Nat.le_trans⟩

theorem sortByKey_sorted (xs : List α) : (sortByKey key xs).Pairwise fun a b => key a ≤ key b :=
  List.pairwise_insertionSort _ xs

theorem orderedInsert_filter (a : α) (xs : List α) (n : Nat) :
    (xs.orderedInsert (fun a b => key a ≤ key b) a).filter (fun x => key x = n) =
      (a :: xs).filter fun x => key x = n := by
  induction xs with
  | nil => rfl
  | cons b xs ih =>
    by_cases before : key a ≤ key b
    · rw [List.orderedInsert_cons, if_pos before]
    · rw [List.orderedInsert_cons, if_neg before, List.filter_cons, ih]
      by_cases first : key a = n
      · have other : key b ≠ n := by omega
        simp [first, other]
      · simp [first, List.filter_cons]

theorem sortByKey_filter (xs : List α) (n : Nat) :
    (sortByKey key xs).filter (fun x => key x = n) = xs.filter fun x => key x = n := by
  induction xs with
  | nil => rfl
  | cons a xs ih =>
    rw [sortByKey, List.insertionSort_cons, orderedInsert_filter]
    rw [sortByKey] at ih
    rw [List.filter_cons, List.filter_cons, ih]

theorem eq_of_sorted {xs ys : List α} (first : xs.Pairwise fun a b => key a ≤ key b)
    (second : ys.Pairwise fun a b => key a ≤ key b)
    (same : ∀ n, xs.filter (fun x => key x = n) = ys.filter fun x => key x = n) : xs = ys := by
  induction xs generalizing ys with
  | nil =>
    cases ys with
    | nil => rfl
    | cons y ys => simpa using same (key y)
  | cons x xs ih =>
    have found : x ∈ ys := by
      have listed : x ∈ (x :: xs).filter fun z => key z = key x := by simp
      rw [same] at listed
      exact (List.mem_filter.mp listed).1
    cases ys with
    | nil => cases found
    | cons y ys =>
      have back : y ∈ x :: xs := by
        have listed : y ∈ (y :: ys).filter fun z => key z = key y := by simp
        rw [← same] at listed
        exact (List.mem_filter.mp listed).1
      obtain ⟨lowest, firstRest⟩ := List.pairwise_cons.mp first
      obtain ⟨alsoLowest, secondRest⟩ := List.pairwise_cons.mp second
      have above : key x ≤ key y := by
        rcases List.mem_cons.mp back with rfl | later
        · exact Nat.le_refl _
        · exact lowest y later
      have below : key y ≤ key x := by
        rcases List.mem_cons.mp found with rfl | later
        · exact Nat.le_refl _
        · exact alsoLowest x later
      have level : key y = key x := by omega
      have heads := same (key x)
      simp only [List.filter_cons, level, decide_true, if_true, List.cons.injEq] at heads
      obtain ⟨rfl, -⟩ := heads
      have rest : xs = ys := ih firstRest secondRest fun n => by
        have tails := same n
        by_cases here : key x = n
        · simpa [here] using tails
        · simpa [here] using tails
      rw [rest]

end Lemming.Shared
