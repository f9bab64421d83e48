import Lemming.Prefix.Table

set_option autoImplicit false

namespace Lemming.Prefix

open Shared

variable {A : Type}

def Level.forks : Level A → Bool
  | .nil => false
  | .node _ _ child => (child false).pre?.isSome && (child true).pre?.isSome

-- The root has no parent: unless both of its children are there, the compression loop follows
-- the nil parent.
theorem Level.compress_root {pre : Key} {child : Bool → Level A} (good : (node pre none child).Good) :
    compress [] (node pre none child) =
      if (node pre none child).forks then .ok (node pre none child) else .panic := by
  rcases fold_correct good with ⟨broke, both⟩ | ⟨folded, continued, ⟨s, missing⟩, -⟩
  · have there (s : Bool) : (child s).pre?.isSome = true := by
      cases present : child s with
      | nil => exact absurd present (both s)
      | node _ _ _ => rfl
    simp [compress, broke, forks, there]
  · have single : (node pre none child).forks = false := by
      cases s <;> simp [forks, missing, pre?]
    simp [compress, continued, single]

namespace Table

def forks (t : Table A) : Bool :=
  t.root.forks

variable {t : Table A}

theorem hasLevel_root (valid : t.Valid) : t.hasLevel [] = true := by
  obtain ⟨root⟩ := t
  obtain ⟨top, present, nothing⟩ := valid.root
  cases root with
  | nil => cases present
  | node here result child =>
    cases present
    rw [hasLevel, ← nothing]
    exact Trie.hasNode_label

theorem remove_root (valid : t.Valid) {pre : Key} (backed : pre.Valid) (whole : pre.bits = []) :
    t.remove pre = if t.forks then .ok { root := t.root.clearResult } else .panic := by
  obtain ⟨root⟩ := t
  obtain ⟨top, present, nothing⟩ := valid.root
  have good : root.Good := valid.good
  cases root with
  | nil => cases present
  | node here result child =>
    cases present
    have equal : pre.isEqual top = .ok true := by
      simp [Key.isEqual_correct backed good.1, whole, nothing]
    have compressed := Level.compress_root (Level.clearResult_good good)
    have same : (Level.node top none child).forks = (Level.node top result child).forks := rfl
    rw [same] at compressed
    simp only [remove, Level.descend, equal, Outcome.ok_bind, if_true, Outcome.pure_eq,
      Level.clearResult, compressed]
    by_cases both : (Level.node top result child).forks = true
    · rw [if_pos both, Outcome.ok_bind]
      exact (if_pos both).symm
    · rw [if_neg both, Outcome.panic_bind]
      exact (if_neg both).symm

theorem clearRoot_correct (valid : t.Valid) :
    Valid { root := t.root.clearResult } ∧
      stored { root := t.root.clearResult } = Function.update t.stored [] none := by
  obtain ⟨root⟩ := t
  obtain ⟨top, present, nothing⟩ := valid.root
  have good : root.Good := valid.good
  refine ⟨⟨⟨top, (Level.clearResult_pre root).trans present, nothing⟩,
    Level.clearResult_good good⟩, ?_⟩
  cases root with
  | nil => cases present
  | node here result child =>
    cases present
    funext word
    have erased := Trie.lookup_erase_label top.bits result (fun b => (child b).toTrie) word
    rw [nothing] at erased
    simp only [stored, Level.clearResult, Level.toTrie, nothing, erased, Function.update_apply]

inductive Request (A : Type) where
  | add (pre : BackedKey) (actions : List A)
  | remove (pre : BackedKey)
  | clear

def serve (t : Table A) : Request A → Outcome (Table A)
  | .add pre actions => t.add pre actions
  | .remove pre => (t.remove pre).ignoreError t
  | .clear => .ok t.clear

def serveAll (t : Table A) : List (Request A) → Outcome (Table A)
  | [] => .ok t
  | request :: requests => do (← t.serve request).serveAll requests

def Request.apply (held : Stored A) : Request A → Stored A
  | .add pre actions => Function.update held pre.val.bits (some actions)
  | .remove pre => Function.update held pre.val.bits none
  | .clear => fun _ => none

def Request.applyAll (requests : List (Request A)) : Stored A :=
  requests.foldl Request.apply fun _ => none

theorem serve_correct {after : Table A} (valid : t.Valid) {request : Request A}
    (served : t.serve request = .ok after) :
    after.Valid ∧ after.stored = request.apply t.stored := by
  cases request with
  | add pre actions =>
    obtain ⟨added, run, addedValid, held⟩ := add_correct valid pre.property actions
    cases run.symm.trans served
    exact ⟨addedValid, held⟩
  | remove pre =>
    by_cases whole : pre.val.bits = []
    · -- The root's own entry: only the branch without a panic comes back.
      rw [serve, remove_root valid pre.property whole] at served
      split at served
      · cases served
        rw [Request.apply, whole]
        exact clearRoot_correct valid
      · cases served
    · have nonempty : 0 < pre.val.bitCount := by
        rw [← Key.bits_length pre.property]
        exact List.length_pos_of_ne_nil whole
      rcases remove_correct valid pre.property nonempty with
        ⟨⟨message, failed⟩, absent⟩ | ⟨removed, run, removedValid, held⟩
      · rw [serve, failed] at served
        cases served
        exact ⟨valid, (Function.update_eq_self_iff.mpr absent.symm).symm⟩
      · rw [serve, run] at served
        cases served
        exact ⟨removedValid, held⟩
  | clear =>
    cases served
    exact ⟨empty_valid, funext empty_stored⟩

theorem serveAll_correct {after : Table A} (valid : t.Valid) {requests : List (Request A)}
    (served : t.serveAll requests = .ok after) :
    after.Valid ∧ after.stored = requests.foldl Request.apply t.stored := by
  induction requests generalizing t with
  | nil =>
    cases served
    exact ⟨valid, rfl⟩
  | cons request requests ih =>
    obtain ⟨next, first, rest⟩ := Outcome.bind_eq_ok.mp served
    obtain ⟨nextValid, nextStored⟩ := serve_correct valid first
    rw [List.foldl_cons, ← nextStored]
    exact ih nextValid rest

theorem serveAll_empty {requests : List (Request A)} (served : empty.serveAll requests = .ok t) :
    t.Valid ∧ t.stored = Request.applyAll requests := by
  have start : (empty : Table A).stored = fun _ => none := funext empty_stored
  rw [Request.applyAll, ← start]
  exact serveAll_correct empty_valid served

def lookupAfter (t : Table A) (later : List (Request A)) (input : List UInt8) :
    Outcome (List A) := do
  return (← (← t.serveAll later).match input).2

-- One call of `remove` after a history: it comes back, its error says that the prefix is not stored,
-- and a call with an error might as well not have been made.
structure RemovesExactly (t : Table A) (requests : List (Request A)) (pre : BackedKey) : Prop where
  returns : (t.remove pre).Returns
  error : (∃ message, t.remove pre = .error message) ↔
    Request.applyAll requests pre.val.bits = none
  unchanged : (∃ message, t.remove pre = .error message) → ∀ later input,
    t.lookupAfter (.remove pre :: later) input = t.lookupAfter later input

theorem lookupAfter_failed {pre : BackedKey} {message : String}
    (failed : t.remove pre = .error message) (later : List (Request A)) (input : List UInt8) :
    t.lookupAfter (.remove pre :: later) input = t.lookupAfter later input := by
  have served : t.serve (.remove pre) = .ok t := by rw [serve, failed, Outcome.ignoreError_error]
  rw [lookupAfter, serveAll, served, Outcome.ok_bind, lookupAfter]

theorem removesExactly_iff (requests : List (Request A)) {t : Table A}
    (served : empty.serveAll requests = .ok t) (pre : BackedKey) :
    RemovesExactly t requests pre ↔
      (t.hasLevel pre.val.bits = true → Request.applyAll requests pre.val.bits ≠ none) ∧
        (pre.val.bits = [] → t.forks = true) := by
  obtain ⟨valid, held⟩ := serveAll_empty served
  rw [← held]
  by_cases whole : pre.val.bits = []
  · -- At the root there is always a level, so an error is never returned.
    have removed := remove_root valid pre.property whole
    have level : t.hasLevel pre.val.bits = true := whole ▸ hasLevel_root valid
    constructor
    · intro exact
      have stored : t.stored pre.val.bits ≠ none := by
        intro absent
        obtain ⟨message, failed⟩ := exact.error.mpr (held ▸ absent)
        rw [removed] at failed
        split at failed <;> cases failed
      refine ⟨fun _ => stored, fun _ => ?_⟩
      rcases exact.returns with ⟨after, done⟩ | ⟨message, failed⟩
      · by_contra single
        rw [removed, if_neg single] at done
        cases done
      · exact absurd (held ▸ exact.error.mp ⟨message, failed⟩) stored
    · rintro ⟨carries, both⟩
      rw [if_pos (both whole)] at removed
      have noError : ¬ ∃ message, t.remove pre.val = .error message := by simp [removed]
      exact
        { returns := Or.inl ⟨_, removed⟩
          error := iff_of_false noError (held ▸ carries level)
          unchanged := fun failed => absurd failed noError }
  · have nonempty : 0 < pre.val.bitCount := by
      rw [← Key.bits_length pre.property]
      exact List.length_pos_of_ne_nil whole
    rcases remove_cases valid pre.property nonempty with
      ⟨failed, level, absent⟩ | ⟨after, removed, level, -⟩
    · refine iff_of_true
        { returns := Or.inr failed
          error := iff_of_true failed (held ▸ absent)
          unchanged := fun ⟨_, error⟩ => lookupAfter_failed error } ⟨?_, fun root => absurd root whole⟩
      intro there
      rw [level] at there
      cases there
    · have noError : ¬ ∃ message, t.remove pre.val = .error message := by simp [removed]
      constructor
      · intro exact
        refine ⟨fun _ absent => noError (exact.error.mpr (held ▸ absent)), fun root => absurd root whole⟩
      · rintro ⟨carries, -⟩
        exact
          { returns := Or.inl ⟨_, removed⟩
            error := iff_of_false noError (held ▸ carries level)
            unchanged := fun failed => absurd failed noError }

def shortKey (byte : UInt8) (bitCount : Nat) : BackedKey :=
  ⟨newKey [byte] bitCount, newKey_valid [byte] bitCount⟩

theorem removesExactly_default_route :
    ∃ t, (empty : Table Nat).serveAll
        [.add (shortKey 0 0) [1], .add (shortKey 0 1) [2], .add (shortKey 128 1) [3]] = .ok t ∧
      RemovesExactly t
        [.add (shortKey 0 0) [1], .add (shortKey 0 1) [2], .add (shortKey 128 1) [3]]
        (shortKey 0 0) :=
  ⟨_, rfl, (removesExactly_iff _ rfl _).mpr ⟨fun _ => by decide, fun _ => rfl⟩⟩

-- The zero-length prefix taken out of an empty table follows the root's nil parent. The branch point of
-- two longer prefixes is taken out without an error, though it was never stored.
theorem remove_inexact :
    (¬ RemovesExactly (empty : Table Nat) [] (shortKey 0 0)) ∧
      ∃ t, (empty : Table Nat).serveAll
          [.add (shortKey 0 2) [1], .add (shortKey 64 2) [2]] = .ok t ∧
        ¬ RemovesExactly t [.add (shortKey 0 2) [1], .add (shortKey 64 2) [2]] (shortKey 0 1) := by
  constructor
  · intro exact
    have crashes : (empty : Table Nat).remove (shortKey 0 0) = .panic := rfl
    rcases exact.returns with ⟨after, done⟩ | ⟨message, failed⟩
    · cases crashes.symm.trans done
    · cases crashes.symm.trans failed
  · refine ⟨_, rfl, fun exact => ?_⟩
    obtain ⟨message, failed⟩ := exact.error.mpr (by decide)
    cases failed

end Table

end Lemming.Prefix
