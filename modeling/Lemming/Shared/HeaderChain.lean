import Mathlib.Tactic.Common

set_option autoImplicit false

namespace Lemming.Shared

-- A format of frames that are chains of headers: which bytes are a header of a kind, given the bytes
-- after it, and the kind of the header that follows.
structure Format (Id B : Type) where
  stop : Id
  Reads : Id → List B → List B → Prop
  next : Id → List B → List B → Id

namespace Format

variable {Id B : Type} (format : Format Id B)

-- Reading the frame from a header of kind `id` on passes the headers `layers` and gets to the point
-- where a header of kind `target` is due and `rest` is still unread.
inductive Path : Id → List B → List (Id × List B) → Id → List B → Prop where
  | here (id : Id) (frame : List B) : Path id frame [] id frame
  | header {id target : Id} {header after rest : List B} {layers : List (Id × List B)}
      (reads : format.Reads id header after)
      (onward : Path (format.next id header after) after layers target rest) :
      Path id (header ++ after) ((id, header) :: layers) target rest

def Layout (id : Id) (frame : List B) (layers : List (Id × List B)) (tail : List B) : Prop :=
  format.Path id frame layers format.stop tail

def Reaches (id : Id) (frame : List B) (target : Id) (rest : List B) : Prop :=
  ∃ layers, format.Path id frame layers target rest

def Final (id : Id) (frame : List B) : Prop :=
  ∀ header rest, frame = header ++ rest → ¬ format.Reads id header rest

structure Deterministic : Prop where
  reads : ∀ {id : Id} {header rest header' rest' : List B}, header ++ rest = header' ++ rest' →
    format.Reads id header rest → format.Reads id header' rest' → header = header'
  stop : ∀ frame, format.Final format.stop frame

variable {format} {layers : List (Id × List B)} {rest frame : List B} {target : Id}

theorem Path.frame_eq {id : Id} (path : format.Path id frame layers target rest) :
    frame = layers.flatMap Prod.snd ++ rest := by
  induction path with
  | here => rfl
  | header reads onward ih => rw [List.flatMap_cons, List.append_assoc, ← ih]

theorem Path.append {id middle : Id} {between : List B} {more : List (Id × List B)}
    (first : format.Path id frame layers middle between)
    (second : format.Path middle between more target rest) :
    format.Path id frame (layers ++ more) target rest := by
  induction first with
  | here => exact second
  | header reads onward ih => exact .header reads (ih second)

theorem Path.split {id : Id} {more : List (Id × List B)} :
    ∀ {frame : List B}, format.Path id frame (layers ++ more) target rest →
      ∃ middle between, format.Path id frame layers middle between ∧
        format.Path middle between more target rest := by
  induction layers generalizing id with
  | nil => exact fun path => ⟨_, _, .here _ _, path⟩
  | cons layer layers ih =>
    intro frame path
    cases path with
    | header reads onward =>
      obtain ⟨middle, between, first, second⟩ := ih onward
      exact ⟨middle, between, .header reads first, second⟩

theorem Path.unique (deterministic : format.Deterministic) {id target' : Id} {rest' : List B}
    {layers' : List (Id × List B)} (path : format.Path id frame layers target rest)
    (final : format.Final target rest) (path' : format.Path id frame layers' target' rest')
    (final' : format.Final target' rest') :
    layers = layers' ∧ target = target' ∧ rest = rest' := by
  induction path generalizing layers' with
  | here id frame =>
    cases path' with
    | here => exact ⟨rfl, rfl, rfl⟩
    | header reads => exact absurd reads (final _ _ rfl)
  | @header id target header after rest layers reads onward ih =>
    generalize whole : header ++ after = frame at path'
    cases path' with
    | here =>
      subst whole
      exact absurd reads (final' _ _ rfl)
    | header reads' onward' =>
      obtain rfl := deterministic.reads whole reads reads'
      obtain rfl := List.append_cancel_left whole
      obtain ⟨rfl, sameTarget, sameRest⟩ := ih final onward'
      exact ⟨rfl, sameTarget, sameRest⟩

end Format

end Lemming.Shared
