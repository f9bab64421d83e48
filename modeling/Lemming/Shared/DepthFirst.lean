import Mathlib.Tactic.Common

set_option autoImplicit false

namespace Lemming.Shared

variable {K : Type}

-- The nodes that a walk with a stack comes by, in turn: it enters some of the nodes it takes from the
-- stack, and puts their children on it.
inductive Visits (children : K → List K) (enter : K → Bool) : List K → List K → Prop where
  | done : Visits children enter [] []
  | skip {k : K} {stack visited : List K} :
      enter k = false → Visits children enter stack visited →
        Visits children enter (k :: stack) (k :: visited)
  | push {k : K} {stack visited : List K} :
      enter k = true → Visits children enter (children k ++ stack) visited →
        Visits children enter (k :: stack) (k :: visited)

namespace Visits

variable {children children' : K → List K} {enter enter' : K → Bool} {stack visited : List K}

theorem push_all (rank : K → Nat) (falls : ∀ k, ∀ child ∈ children k, rank child < rank k) (n : Nat) :
    ∀ {above stack : List K}, (∀ k ∈ above, rank k < n) →
      (∃ visited, Visits children enter stack visited) →
        ∃ visited, Visits children enter (above ++ stack) visited := by
  induction n with
  | zero =>
    intro above stack small visits
    cases above with
    | nil => exact visits
    | cons k above => exact absurd (small k List.mem_cons_self) (Nat.not_lt_zero _)
  | succ n ih =>
    intro above stack small visits
    induction above with
    | nil => exact visits
    | cons k above later =>
      obtain ⟨here, rest⟩ := List.forall_mem_cons.mp small
      have below := later rest
      cases entered : enter k with
      | false =>
        obtain ⟨visited, visits⟩ := below
        exact ⟨k :: visited, .skip entered visits⟩
      | true =>
        have smaller : ∀ child ∈ children k, rank child < n := fun child mem =>
          Nat.lt_of_lt_of_le (falls k child mem) (Nat.le_of_lt_succ here)
        obtain ⟨visited, visits⟩ := ih smaller below
        exact ⟨k :: visited, .push entered visits⟩

theorem ends (rank : K → Nat) (falls : ∀ k, ∀ child ∈ children k, rank child < rank k) (root : K) :
    ∃ visited, Visits children enter [root] visited :=
  push_all rank falls (rank root + 1)
    (fun k mem => by rw [List.mem_singleton.mp mem]; exact Nat.lt_succ_self _) ⟨[], .done⟩

theorem complete (visits : Visits children enter stack visited) :
    (∀ k ∈ stack, k ∈ visited) ∧
      ∀ k ∈ visited, enter k = true → ∀ child ∈ children k, child ∈ visited := by
  induction visits with
  | done => exact ⟨nofun, nofun⟩
  | @skip k stack visited skipped visits ih =>
    refine ⟨fun x mem => ?_, fun x mem entered child isChild => ?_⟩
    · exact (List.mem_cons.mp mem).elim (· ▸ List.mem_cons_self) fun later => .tail _ (ih.1 x later)
    · rcases List.mem_cons.mp mem with rfl | later
      · rw [skipped] at entered
        cases entered
      · exact .tail _ (ih.2 x later entered child isChild)
  | @push k stack visited entered visits ih =>
    refine ⟨fun x mem => ?_, fun x mem entered child isChild => ?_⟩
    · exact (List.mem_cons.mp mem).elim (· ▸ List.mem_cons_self) fun later =>
        .tail _ (ih.1 x (List.mem_append_right _ later))
    · rcases List.mem_cons.mp mem with rfl | later
      · exact .tail _ (ih.1 child (List.mem_append_left _ isChild))
      · exact .tail _ (ih.2 x later entered child isChild)

theorem reached (visits : Visits children enter stack visited) : ∀ k ∈ visited,
    k ∈ stack ∨ ∃ parent ∈ visited, enter parent = true ∧ k ∈ children parent := by
  induction visits with
  | done => exact nofun
  | @skip k stack visited skipped visits ih =>
    intro x mem
    rcases List.mem_cons.mp mem with rfl | later
    · exact .inl List.mem_cons_self
    · refine (ih x later).imp (List.mem_cons_of_mem _) ?_
      rintro ⟨parent, isVisited, entered⟩
      exact ⟨parent, List.mem_cons_of_mem _ isVisited, entered⟩
  | @push k stack visited entered visits ih =>
    intro x mem
    rcases List.mem_cons.mp mem with rfl | later
    · exact .inl List.mem_cons_self
    · rcases ih x later with onStack | ⟨parent, isVisited, entered'⟩
      · rcases List.mem_append.mp onStack with isChild | below
        · exact .inr ⟨k, List.mem_cons_self, entered, isChild⟩
        · exact .inl (List.mem_cons_of_mem _ below)
      · exact .inr ⟨parent, List.mem_cons_of_mem _ isVisited, entered'⟩

theorem filter (keep : K → Bool) (kept : ∀ k, keep k = true → children' k = (children k).filter keep)
    (lost : ∀ k, keep k = false → ∀ child ∈ children k, keep child = false)
    (alike : ∀ k, keep k = true → enter' k = enter k) (visits : Visits children enter stack visited) :
    Visits children' enter' (stack.filter keep) (visited.filter keep) := by
  induction visits with
  | done => exact .done
  | @skip k stack visited skipped visits ih =>
    cases isKept : keep k with
    | false => simpa [isKept] using ih
    | true => simpa [isKept] using Visits.skip ((alike k isKept).trans skipped) ih
  | @push k stack visited entered visits ih =>
    rw [List.filter_append] at ih
    cases isKept : keep k with
    | false =>
      have none : (children k).filter keep = [] :=
        List.filter_eq_nil_iff.mpr fun child mem => by simp [lost k isKept child mem]
      rw [none, List.nil_append] at ih
      simpa [isKept] using ih
    | true =>
      rw [← kept k isKept] at ih
      simpa [isKept] using Visits.push ((alike k isKept).trans entered) ih

end Visits

end Lemming.Shared
