import Mathlib.Tactic.Common

set_option autoImplicit false

namespace Lemming.Shared

universe u v

-- How one call of a modelled program ends. `diverge` is a loop whose fuel ran out.
inductive Outcome (α : Type u) where
  | ok (value : α)
  | error (message : String)
  | panic
  | diverge
deriving DecidableEq, Repr

namespace Outcome

variable {α : Type u}

def bind {β : Type v} (outcome : Outcome α) (next : α → Outcome β) : Outcome β :=
  match outcome with
  | .ok value => next value
  | .error message => .error message
  | .panic => .panic
  | .diverge => .diverge

instance : Monad Outcome where
  pure := .ok
  bind := bind

@[simp] theorem pure_eq (value : α) : (pure value : Outcome α) = .ok value := rfl

variable {β : Type u}

@[simp] theorem ok_bind (value : α) (next : α → Outcome β) :
    (Outcome.ok value >>= next) = next value := rfl

@[simp] theorem error_bind (message : String) (next : α → Outcome β) :
    (Outcome.error message >>= next) = .error message := rfl

@[simp] theorem panic_bind (next : α → Outcome β) :
    ((Outcome.panic : Outcome α) >>= next) = .panic := rfl

@[simp] theorem diverge_bind (next : α → Outcome β) :
    ((Outcome.diverge : Outcome α) >>= next) = .diverge := rfl

instance : LawfulMonad Outcome :=
  LawfulMonad.mk' Outcome (fun outcome => by cases outcome <;> rfl) (fun _ _ => rfl)
    (fun outcome _ _ => by cases outcome <;> rfl)

theorem bind_eq_ok {outcome : Outcome α} {next : α → Outcome β} {result : β} :
    (outcome >>= next) = .ok result ↔ ∃ value, outcome = .ok value ∧ next value = .ok result := by
  cases outcome <;> simp

instance decidablePanic {α : Type u} : (outcome : Outcome α) → Decidable (outcome = .panic)
  | .ok _ => isFalse nofun
  | .error _ => isFalse nofun
  | .panic => isTrue rfl
  | .diverge => isFalse nofun

def ignoreError (old : α) : Outcome α → Outcome α
  | .error _ => .ok old
  | outcome => outcome

@[simp] theorem ignoreError_ok (old value : α) :
    (Outcome.ok value).ignoreError old = .ok value := rfl

@[simp] theorem ignoreError_error (old : α) (message : String) :
    (Outcome.error message).ignoreError old = .ok old := rfl

def wrap (text : String) : Outcome α → Outcome α
  | .error message => .error (text ++ message)
  | outcome => outcome

@[simp] theorem wrap_ok (text : String) (value : α) :
    (Outcome.ok value).wrap text = .ok value := rfl

@[simp] theorem wrap_error (text message : String) :
    (Outcome.error message : Outcome α).wrap text = .error (text ++ message) := rfl

@[simp] theorem wrap_panic (text : String) :
    (Outcome.panic : Outcome α).wrap text = .panic := rfl

@[simp] theorem wrap_diverge (text : String) :
    (Outcome.diverge : Outcome α).wrap text = .diverge := rfl

theorem wrap_eq_ok {text : String} {outcome : Outcome α} {value : α} :
    outcome.wrap text = .ok value ↔ outcome = .ok value := by
  cases outcome <;> simp [wrap]

section Specifications

variable {α β : Type u} {outcome : Outcome α} {next : α → Outcome β} {P P' : α → Prop}
  {Q : β → Prop}

def Yields (outcome : Outcome α) (P : α → Prop) : Prop :=
  ∃ value, outcome = .ok value ∧ P value

def Allows (outcome : Outcome α) (P : α → Prop) : Prop :=
  outcome.Yields P ∨ ∃ message, outcome = .error message

def Whenever (outcome : Outcome α) (P : α → Prop) : Prop :=
  ∀ value, outcome = .ok value → P value

theorem Yields.pure {value : α} (holds : P value) : (Outcome.ok value).Yields P :=
  ⟨value, rfl, holds⟩

theorem Yields.bind (first : outcome.Yields P) (onward : ∀ value, P value → (next value).Yields Q) :
    (outcome >>= next).Yields Q := by
  obtain ⟨value, rfl, holds⟩ := first
  exact onward value holds

theorem Yields.imp (yields : outcome.Yields P) (weaken : ∀ value, P value → P' value) :
    outcome.Yields P' := by
  obtain ⟨value, isOk, holds⟩ := yields
  exact ⟨value, isOk, weaken value holds⟩

theorem yields_mapM {γ : Type u} {R : γ → α → Prop} {f : γ → Outcome α} {xs : List γ} :
    (xs.mapM f).Yields (List.Forall₂ R xs) ↔ ∀ x ∈ xs, (f x).Yields (R x) := by
  induction xs with
  | nil => exact iff_of_true ⟨[], rfl, .nil⟩ nofun
  | cons x xs ih =>
    rw [List.mapM_cons, List.forall_mem_cons, ← ih]
    constructor
    · rintro ⟨values, isOk, all⟩
      obtain ⟨value, first, isOk⟩ := bind_eq_ok.mp isOk
      obtain ⟨rest, later, isOk⟩ := bind_eq_ok.mp isOk
      cases isOk
      cases all with
      | cons holds all => exact ⟨⟨value, first, holds⟩, rest, later, all⟩
    · rintro ⟨⟨value, first, holds⟩, rest, later, all⟩
      exact ⟨value :: rest, by rw [first, later]; rfl, .cons holds all⟩

theorem Yields.and (first : outcome.Yields P) (second : outcome.Yields P') :
    outcome.Yields fun value => P value ∧ P' value := by
  obtain ⟨value, rfl, holds⟩ := first
  obtain ⟨other, same, also⟩ := second
  cases same
  exact ⟨value, rfl, holds, also⟩

theorem Yields.whenever (yields : outcome.Yields P) : outcome.Whenever P := by
  obtain ⟨value, rfl, holds⟩ := yields
  intro other same
  cases same
  exact holds

theorem Allows.pure {value : α} (holds : P value) : (Outcome.ok value).Allows P :=
  Or.inl (.pure holds)

theorem Allows.error (message : String) : (Outcome.error message).Allows P :=
  Or.inr ⟨message, rfl⟩

theorem Allows.bind (first : outcome.Allows P) (onward : ∀ value, P value → (next value).Allows Q) :
    (outcome >>= next).Allows Q := by
  rcases first with ⟨value, rfl, holds⟩ | ⟨message, rfl⟩
  · exact onward value holds
  · exact .error message

theorem Allows.wrap (allows : outcome.Allows P) (text : String) : (outcome.wrap text).Allows P := by
  rcases allows with ⟨value, rfl, holds⟩ | ⟨message, rfl⟩
  · exact .pure holds
  · exact .error _

theorem Allows.whenever (allows : outcome.Allows P) : outcome.Whenever P := by
  rcases allows with yields | ⟨message, rfl⟩
  · exact yields.whenever
  · exact nofun

theorem Whenever.any (outcome : Outcome α) : outcome.Whenever fun _ => True :=
  fun _ _ => trivial

theorem Whenever.pure {value : α} (holds : P value) : (Outcome.ok value).Whenever P := by
  intro other same
  cases same
  exact holds

theorem Whenever.bind (first : outcome.Whenever P)
    (onward : ∀ value, P value → (next value).Whenever Q) : (outcome >>= next).Whenever Q := by
  intro result isOk
  obtain ⟨value, isValue, isOk⟩ := bind_eq_ok.mp isOk
  exact onward value (first value isValue) result isOk

end Specifications

def Returns (outcome : Outcome α) : Prop :=
  (∃ value, outcome = .ok value) ∨ ∃ message, outcome = .error message

section Loops

variable {α β : Type u} {outcome : Outcome α} {f : β → α → Outcome β} {xs done : List α}
  {start result : β}

theorem Returns.ok (value : α) : (Outcome.ok value).Returns := Or.inl ⟨value, rfl⟩

theorem Returns.error (message : String) : (Outcome.error message : Outcome α).Returns :=
  Or.inr ⟨message, rfl⟩

theorem Returns.wrap (returns : outcome.Returns) (text : String) : (outcome.wrap text).Returns := by
  rcases returns with ⟨value, rfl⟩ | ⟨message, rfl⟩
  · exact .ok value
  · exact .error _

theorem Returns.bind {next : α → Outcome β} (returns : outcome.Returns)
    (onward : ∀ value, (next value).Returns) : (outcome >>= next).Returns := by
  rcases returns with ⟨value, rfl⟩ | ⟨message, rfl⟩
  · exact onward value
  · exact .error message

theorem Returns.foldlM (each : ∀ x ∈ xs, ∀ acc, (f acc x).Returns) (start : β) :
    (xs.foldlM f start).Returns := by
  induction xs generalizing start with
  | nil => exact .ok start
  | cons x xs ih =>
    rw [List.foldlM_cons]
    obtain ⟨first, rest⟩ := List.forall_mem_cons.mp each
    exact Returns.bind (first start) (ih rest)

theorem Yields.foldlM (each : ∀ x ∈ xs, ∀ acc, ∃ next, f acc x = .ok next) (start : β) :
    ∃ result, xs.foldlM f start = .ok result := by
  induction xs generalizing start with
  | nil => exact ⟨start, rfl⟩
  | cons x xs ih =>
    obtain ⟨first, rest⟩ := List.forall_mem_cons.mp each
    obtain ⟨next, round⟩ := first start
    rw [List.foldlM_cons, round]
    exact ih rest next

theorem foldlM_eq_ok (isOk : xs.foldlM f start = .ok result) :
    ∀ x ∈ xs, ∃ before after, f before x = .ok after := by
  induction xs generalizing start with
  | nil => simp
  | cons x xs ih =>
    rw [List.foldlM_cons] at isOk
    obtain ⟨next, first, rest⟩ := bind_eq_ok.mp isOk
    exact List.forall_mem_cons.mpr ⟨⟨start, next, first⟩, ih rest⟩

theorem foldlM_history {I : List α → β → Prop}
    (keeps : ∀ done acc x next, I done acc → f acc x = .ok next → I (done ++ [x]) next)
    (holds : I done start) (isOk : xs.foldlM f start = .ok result) : I (done ++ xs) result := by
  induction xs generalizing done start with
  | nil =>
    cases isOk
    rwa [List.append_nil]
  | cons x xs ih =>
    rw [List.foldlM_cons] at isOk
    obtain ⟨next, first, rest⟩ := bind_eq_ok.mp isOk
    have onward := ih (keeps done start x next holds first) rest
    rwa [List.append_assoc] at onward

def Unfailing (outcome : Outcome α) : Prop :=
  ∀ message, outcome ≠ .error message

theorem Unfailing.wrap (unfailing : outcome.Unfailing) (text : String) :
    (outcome.wrap text).Unfailing := by
  cases outcome with
  | error message => exact absurd rfl (unfailing message)
  | _ =>
    intro message same
    cases same

theorem Unfailing.bind {next : α → Outcome β} (unfailing : outcome.Unfailing)
    (onward : ∀ value, (next value).Unfailing) : (outcome >>= next).Unfailing := by
  cases outcome with
  | ok value => exact onward value
  | error message => exact absurd rfl (unfailing message)
  | _ =>
    intro message same
    cases same

theorem Unfailing.foldlM (each : ∀ x ∈ xs, ∀ acc, (f acc x).Unfailing) (start : β) :
    (xs.foldlM f start).Unfailing := by
  induction xs generalizing start with
  | nil =>
    intro message same
    cases same
  | cons x xs ih =>
    rw [List.foldlM_cons]
    obtain ⟨first, rest⟩ := List.forall_mem_cons.mp each
    exact Unfailing.bind (first start) (ih rest)

theorem Returns.ok_of_unfailing (returns : outcome.Returns) (unfailing : outcome.Unfailing) :
    ∃ value, outcome = .ok value := by
  rcases returns with isOk | ⟨message, failed⟩
  · exact isOk
  · exact absurd failed (unfailing message)

end Loops

end Outcome

end Lemming.Shared
