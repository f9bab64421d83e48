import Mathlib.Tactic.Common

set_option autoImplicit false

namespace Lemming.Shared.Interleaving

variable {S A : Type} {step : S → A → Option S}

def run (step : S → A → Option S) (s : S) : List A → Option S
  | [] => some s
  | a :: rest => (step s a).bind fun t => run step t rest

def Along (step : S → A → Option S) (P : S → A → Prop) (s : S) : List A → Prop
  | [] => True
  | a :: rest => P s a ∧ ∀ t, step s a = some t → Along step P t rest

def AtRest (step : S → A → Option S) (internal : A → Prop) (s : S) : Prop :=
  ∀ a, internal a → step s a = none

variable {s t : S} {actions : List A}

theorem run_cons {a : A} {rest : List A} (ends : run step s (a :: rest) = some t) :
    ∃ next, step s a = some next ∧ run step next rest = some t := by
  rw [run] at ends
  exact Option.bind_eq_some_iff.mp ends

theorem run_append (s : S) (actions more : List A) :
    run step s (actions ++ more) = (run step s actions).bind fun t => run step t more := by
  induction actions generalizing s with
  | nil => rfl
  | cons a rest ih =>
    rw [List.cons_append, run, run]
    cases step s a with
    | none => rfl
    | some next => exact ih next

variable {P : S → A → Prop} {I : S → Prop}

theorem Along.invariant (keeps : ∀ s a t, I s → P s a → step s a = some t → I t)
    (along : Along step P s actions) (holds : I s) (ends : run step s actions = some t) : I t := by
  induction actions generalizing s with
  | nil =>
    cases ends
    exact holds
  | cons a rest ih =>
    obtain ⟨next, goes, ends⟩ := run_cons ends
    exact ih (along.2 next goes) (keeps s a next holds along.1 goes) ends

-- Two conditions that are the same under an invariant, which they keep, are met along the same
-- interleavings. The invariant can speak of the actions that are left.
theorem along_iff_left {Q : S → A → Prop} {I : S → List A → Prop}
    (keeps : ∀ s a rest t, I s (a :: rest) → P s a → step s a = some t → I t rest)
    (same : ∀ s a rest, I s (a :: rest) → (P s a ↔ Q s a)) (holds : I s actions) :
    Along step P s actions ↔ Along step Q s actions := by
  induction actions generalizing s with
  | nil => exact Iff.rfl
  | cons a rest ih =>
    rw [Along, Along, ← same s a rest holds]
    refine and_congr_right fun meets => forall₂_congr fun t goes => ?_
    exact ih (keeps s a rest t holds meets goes)

theorem Along.of_forall (all : ∀ s, ∀ a ∈ actions, P s a) :
    Along step P s actions := by
  induction actions generalizing s with
  | nil => trivial
  | cons a rest ih =>
    refine ⟨all s a List.mem_cons_self, fun t _ => ih fun s b member => ?_⟩
    exact all s b (List.mem_cons_of_mem a member)

theorem exists_of_not_along (not : ¬ Along step P s actions) :
    ∃ part a rest t, actions = part ++ a :: rest ∧ run step s part = some t ∧
      Along step P s part ∧ ¬ P t a := by
  induction actions generalizing s with
  | nil => exact absurd trivial not
  | cons a rest ih =>
    by_cases meets : P s a
    · have later : ∃ t, step s a = some t ∧ ¬ Along step P t rest := by
        by_contra none
        push Not at none
        exact not ⟨meets, none⟩
      obtain ⟨next, goes, later⟩ := later
      obtain ⟨part, b, after, t, rfl, ends, along, fails⟩ := ih later
      refine ⟨a :: part, b, after, t, rfl, ?_, ⟨meets, fun t' goes' => ?_⟩, fails⟩
      · rw [run, goes]
        exact ends
      · cases goes.symm.trans goes'
        exact along
    · exact ⟨[], a, rest, s, rfl, rfl, trivial, meets⟩

theorem Along.of_prefix {part : List A} (along : Along step P s actions)
    (isPart : part <+: actions) : Along step P s part := by
  induction part generalizing s actions with
  | nil => trivial
  | cons a part ih =>
    obtain ⟨rest, rfl⟩ := isPart
    refine ⟨along.1, fun t goes => ih (along.2 t goes) (List.prefix_append part rest)⟩

theorem run_invariant (keeps : ∀ s a t, I s → step s a = some t → I t) (holds : I s)
    (ends : run step s actions = some t) : I t :=
  Along.invariant (P := fun _ _ => True) (fun s a t holds _ goes => keeps s a t holds goes)
    (.of_forall fun _ _ _ => trivial) holds ends

theorem Along.imp {Q : S → A → Prop} (along : Along step P s actions)
    (keeps : ∀ s a t, I s → P s a → step s a = some t → I t) (gives : ∀ s a, I s → P s a → Q s a)
    (holds : I s) : Along step Q s actions := by
  induction actions generalizing s with
  | nil => trivial
  | cons a rest ih =>
    refine ⟨gives s a holds along.1, fun t goes => ?_⟩
    exact ih (along.2 t goes) (keeps s a t holds along.1 goes)

theorem Along.of_invariant (keeps : ∀ s a t, I s → step s a = some t → I t)
    (gives : ∀ s a, I s → P s a) (holds : I s) : Along step P s actions :=
  Along.imp (P := fun _ _ => True) (.of_forall fun _ _ _ => trivial)
    (fun s a t holds _ => keeps s a t holds) (fun s a holds _ => gives s a holds) holds

section Progress

variable {internal : A → Prop} {rank : S → Nat}

theorem length_le_rank (lowers : ∀ s a t, internal a → step s a = some t → rank t < rank s)
    (inside : ∀ a ∈ actions, internal a) (ends : run step s actions = some t) :
    actions.length + rank t ≤ rank s := by
  induction actions generalizing s with
  | nil =>
    cases ends
    simp
  | cons a rest ih =>
    obtain ⟨next, goes, ends⟩ := run_cons ends
    have lower := lowers s a next (inside a List.mem_cons_self) goes
    have later := ih (fun b member => inside b (List.mem_cons_of_mem a member)) ends
    rw [List.length_cons]
    omega

theorem exists_rest (lowers : ∀ s a t, internal a → step s a = some t → rank t < rank s) (s : S) :
    ∃ more t, (∀ a ∈ more, internal a) ∧ run step s more = some t ∧ AtRest step internal t := by
  induction isRank : rank s using Nat.strongRecOn generalizing s with
  | ind n ih =>
    by_cases rest : AtRest step internal s
    · exact ⟨[], s, by simp, rfl, rest⟩
    · obtain ⟨a, inside, goes⟩ : ∃ a, internal a ∧ step s a ≠ none := by simpa [AtRest] using rest
      obtain ⟨next, goes⟩ := Option.ne_none_iff_exists'.mp goes
      obtain ⟨more, t, later, ends, rest⟩ := ih _ (isRank ▸ lowers s a next inside goes) next rfl
      refine ⟨a :: more, t, List.forall_mem_cons.mpr ⟨inside, later⟩, ?_, rest⟩
      rw [run, goes]
      exact ends

end Progress

end Lemming.Shared.Interleaving
