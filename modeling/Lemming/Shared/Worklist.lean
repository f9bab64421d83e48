import Mathlib.Tactic.Common

set_option autoImplicit false

namespace Lemming.Shared.Worklist

variable {X W E : Type}

def inOrder (run : X → W → Option (W × Option E)) : List X → W → Option (W × Option E)
  | [], w => some (w, none)
  | x :: rest, w =>
    match run x w with
    | none => none
    | some (w, some e) => some (w, some e)
    | some (w, none) => inOrder run rest w

-- What to do with one node: go on with further ones, or end the whole. The number bounds the depth of
-- what a visit runs itself.
abbrev Visit (X W E : Type) := Nat → X → W → Option (W × (List X ⊕ E))

def recurse (visit : Visit X W E) : Nat → X → W → Option (W × Option E)
  | 0, _, _ => none
  | depth + 1, x, w =>
    match visit depth x w with
    | none => none
    | some (w, .inr e) => some (w, some e)
    | some (w, .inl more) => inOrder (recurse visit depth) more w

def iterate (visit : Visit X W E) : Nat → List X → W → Option (W × Option E)
  | 0, _, _ => none
  | _ + 1, [], w => some (w, none)
  | fuel + 1, x :: rest, w =>
    match visit fuel x w with
    | none => none
    | some (w, .inr e) => some (w, some e)
    | some (w, .inl more) => iterate visit fuel (more ++ rest) w

def Lasting (visit : Visit X W E) : Prop :=
  ∀ depth more x w r, visit depth x w = some r → depth ≤ more → visit more x w = some r

section InOrder

variable {run run' : X → W → Option (W × Option E)}

theorem inOrder_append (xs ys : List X) (w : W) :
    inOrder run (xs ++ ys) w =
      match inOrder run xs w with
      | none => none
      | some (w, some e) => some (w, some e)
      | some (w, none) => inOrder run ys w := by
  induction xs generalizing w with
  | nil => rfl
  | cons x rest ih =>
    rw [List.cons_append, inOrder, inOrder]
    rcases run x w with _ | ⟨w', _ | e⟩
    · rfl
    · exact ih w'
    · rfl

theorem inOrder_mono (more : ∀ {x w r}, run x w = some r → run' x w = some r) {xs : List X} {w : W}
    {r : W × Option E} (ended : inOrder run xs w = some r) : inOrder run' xs w = some r := by
  induction xs generalizing w with
  | nil => exact ended
  | cons x rest ih =>
    rw [inOrder] at ended ⊢
    split at ended
    · cases ended
    · next ran =>
      rw [more ran]
      exact ended
    · next ran =>
      rw [more ran]
      exact ih ended

end InOrder

section Rules

variable {visit : Visit X W E} {r : W × Option E} {w : W} {depth : Nat} {x : X}

theorem recurse_mono (lasting : Lasting visit) {more : Nat} (le : depth ≤ more)
    (ended : recurse visit depth x w = some r) : recurse visit more x w = some r := by
  induction depth generalizing more x w r with
  | zero => cases ended
  | succ depth ih =>
    obtain ⟨more, rfl⟩ : ∃ m, more = m + 1 := ⟨more - 1, by omega⟩
    rw [recurse] at ended ⊢
    split at ended
    · cases ended
    · next visited =>
      rw [lasting _ more _ _ _ visited (by omega)]
      exact ended
    · next visited =>
      rw [lasting _ more _ _ _ visited (by omega)]
      exact inOrder_mono (ih (by omega)) ended

variable {xs : List X}

theorem iterate_mono (lasting : Lasting visit) {fuel more : Nat} (le : fuel ≤ more)
    (ended : iterate visit fuel xs w = some r) : iterate visit more xs w = some r := by
  induction fuel generalizing more xs w with
  | zero => cases ended
  | succ fuel ih =>
    obtain ⟨more, rfl⟩ : ∃ m, more = m + 1 := ⟨more - 1, by omega⟩
    cases xs with
    | nil => exact ended
    | cons x rest =>
      rw [iterate] at ended ⊢
      split at ended
      · cases ended
      · next visited =>
        rw [lasting _ more _ _ _ visited (by omega)]
        exact ended
      · next visited =>
        rw [lasting _ more _ _ _ visited (by omega)]
        exact ih (by omega) ended

theorem recurse_of_iterate (lasting : Lasting visit) {fuel : Nat}
    (ended : iterate visit fuel xs w = some r) : inOrder (recurse visit fuel) xs w = some r := by
  induction fuel generalizing xs w with
  | zero => cases ended
  | succ fuel ih =>
    cases xs with
    | nil => exact ended
    | cons x rest =>
      rw [iterate] at ended
      rw [inOrder, recurse]
      split at ended
      · cases ended
      · exact ended
      · -- The siblings run with one level more than they need.
        have both := ih ended
        rw [inOrder_append] at both
        split at both
        · cases both
        · exact both
        · exact inOrder_mono (recurse_mono lasting (Nat.le_succ fuel)) both

def Ends (visit : Visit X W E) (xs : List X) (w : W) (r : W × Option E) : Prop :=
  ∃ fuel, iterate visit fuel xs w = some r

theorem ends_nil (w : W) : Ends visit [] w (w, none) := ⟨1, rfl⟩

theorem ends_exit {w' : W} {e : E} (visited : visit depth x w = some (w', .inr e)) (rest : List X) :
    Ends visit (x :: rest) w (w', some e) :=
  ⟨depth + 1, by rw [iterate, visited]⟩

theorem ends_more (lasting : Lasting visit) {w' : W} {more rest : List X}
    (visited : visit depth x w = some (w', .inl more)) (ends : Ends visit (more ++ rest) w' r) :
    Ends visit (x :: rest) w r := by
  obtain ⟨fuel, ended⟩ := ends
  refine ⟨max depth fuel + 1, ?_⟩
  rw [iterate, lasting _ _ _ _ _ visited (Nat.le_max_left depth fuel)]
  exact iterate_mono lasting (Nat.le_max_right _ _) ended

theorem Ends.cons_cases {rest : List X} (ends : Ends visit (x :: rest) w r) :
    ∃ depth w', (∃ e, visit depth x w = some (w', .inr e) ∧ r = (w', some e)) ∨
      ∃ more, visit depth x w = some (w', .inl more) ∧ Ends visit (more ++ rest) w' r := by
  obtain ⟨fuel, ended⟩ := ends
  cases fuel with
  | zero => cases ended
  | succ fuel =>
    rw [iterate] at ended
    split at ended
    · cases ended
    · next w' e visited =>
      cases ended
      exact ⟨fuel, w', Or.inl ⟨e, visited, rfl⟩⟩
    · next w' more visited => exact ⟨fuel, w', Or.inr ⟨more, visited, fuel, ended⟩⟩

theorem Ends.unique (lasting : Lasting visit) {r' : W × Option E} (ends : Ends visit xs w r)
    (ends' : Ends visit xs w r') : r = r' := by
  obtain ⟨fuel, ended⟩ := ends
  obtain ⟨fuel', ended'⟩ := ends'
  have more := iterate_mono lasting (Nat.le_max_left fuel fuel') ended
  have more' := iterate_mono lasting (Nat.le_max_right fuel fuel') ended'
  exact Option.some.inj (more.symm.trans more')

theorem Lasting.unique (lasting : Lasting visit) {depth' : Nat} {r r' : W × (List X ⊕ E)}
    (visited : visit depth x w = some r) (visited' : visit depth' x w = some r') : r = r' := by
  have more := lasting _ _ _ _ _ visited (Nat.le_max_left depth depth')
  have more' := lasting _ _ _ _ _ visited' (Nat.le_max_right depth depth')
  exact Option.some.inj (more.symm.trans more')

theorem ends_cons_inl (lasting : Lasting visit) {w' : W} {more rest : List X}
    (visited : visit depth x w = some (w', .inl more)) :
    Ends visit (x :: rest) w r ↔ Ends visit (more ++ rest) w' r := by
  refine ⟨fun ends => ?_, ends_more lasting visited⟩
  obtain ⟨depth', w'', ⟨e, visited', -⟩ | ⟨more', visited', onward⟩⟩ := ends.cons_cases
  · cases lasting.unique visited visited'
  · cases lasting.unique visited visited'
    exact onward

theorem Ends.invariant (Inv : W → Prop)
    (kept : ∀ {depth x w r}, visit depth x w = some r → Inv w → Inv r.1) (ends : Ends visit xs w r)
    (initial : Inv w) : Inv r.1 := by
  obtain ⟨fuel, ended⟩ := ends
  induction fuel generalizing xs w with
  | zero => cases ended
  | succ fuel ih =>
    cases xs with
    | nil =>
      cases ended
      exact initial
    | cons x rest =>
      rw [iterate] at ended
      split at ended
      · cases ended
      · next visited =>
        cases ended
        exact kept visited initial
      · next visited => exact ih (kept visited initial) ended

def EndsAfter (visit : Visit X W E) (ran : W × Option E) (ys : List X) (r : W × Option E) : Prop :=
  match ran with
  | (w, some e) => r = (w, some e)
  | (w, none) => Ends visit ys w r

theorem ends_append (lasting : Lasting visit) {ys : List X} {ran : W × Option E}
    (ended : inOrder (recurse visit depth) xs w = some ran)
    (onward : EndsAfter visit ran ys r) : Ends visit (xs ++ ys) w r := by
  induction depth generalizing xs ys w ran r with
  | zero =>
    cases xs with
    | nil =>
      cases ended
      exact onward
    | cons x rest => cases ended
  | succ depth deeper =>
    induction xs generalizing w with
    | nil =>
      cases ended
      exact onward
    | cons x rest ih =>
      rw [inOrder, recurse] at ended
      rcases visited : visit depth x w with _ | ⟨w', nodes | e⟩
      · simp [visited] at ended
      · simp only [visited] at ended
        apply ends_more lasting visited
        split at ended
        · cases ended
        · next first =>
          cases ended
          exact deeper first onward
        · next first => exact deeper first (ih ended)
      · simp only [visited] at ended
        cases ended
        cases onward
        exact ends_exit visited _

theorem ends_iff (lasting : Lasting visit) (xs : List X) (w : W) (r : W × Option E) :
    Ends visit xs w r ↔ ∃ depth, inOrder (recurse visit depth) xs w = some r := by
  constructor
  · intro ⟨fuel, ended⟩
    exact ⟨fuel, recurse_of_iterate lasting ended⟩
  · intro ⟨depth, ended⟩
    rw [← List.append_nil xs]
    apply ends_append lasting ended
    obtain ⟨w', ending⟩ := r
    cases ending with
    | some e => rfl
    | none => exact ends_nil w'

end Rules

end Lemming.Shared.Worklist
