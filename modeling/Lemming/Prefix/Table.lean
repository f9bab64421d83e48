import Lemming.Prefix.Refinement

set_option autoImplicit false

namespace Lemming.Prefix

open Shared

section

variable {A : Type}

def Calculate (byteCount : Nat) : Nat :=
  byteBitCount * byteCount

structure Table (A : Type) where
  root : Level A

def Table.match (t : Table A) (input : List UInt8) : Outcome (Key × List A) :=
  match t.root.pre? with
  | none => .panic
  | some record => Level.matchLoop (newKey input (Calculate input.length)) record [] t.root

namespace Table

def empty : Table A where
  root := Level.newLevel (newKey [] 0)

def add (t : Table A) (pre : Key) (actions : List A) : Outcome (Table A) := do
  return { root := ← Level.addLoop actions (pre.bitCount + 1) t.root pre }

def remove (t : Table A) (pre : Key) : Outcome (Table A) := do
  let (curr, above) ← Level.descend pre [] t.root
  return { root := ← Level.compress above curr.clearResult }

def clear (_ : Table A) : Table A :=
  empty

abbrev Stored (A : Type) := List Bool → Option (List A)

def stored (t : Table A) : Stored A :=
  t.root.toTrie.lookup

structure Valid (t : Table A) : Prop where
  root : ∃ pre, t.root.pre? = some pre ∧ pre.bits = []
  good : t.root.Good

theorem empty_valid : (empty : Table A).Valid :=
  ⟨⟨newKey [] 0, rfl, rfl⟩, Level.newLevel_good A (newKey_valid [] 0)⟩

theorem empty_stored (word : List Bool) : (empty : Table A).stored word = none :=
  Trie.lookup_bare _ word

variable {t : Table A}

theorem match_correct (valid : t.Valid) (input : List UInt8) :
    ∃ record, t.match input = .ok (record, (longestMatch t.stored (bitString input)).getD []) := by
  obtain ⟨pre, present, nothing⟩ := valid.root
  obtain ⟨record, found⟩ := Level.matchLoop_correct (newKey input (Calculate input.length)) pre []
    present valid.good (newKey_valid _ _) (by simp [nothing])
  have bits : (newKey input (Calculate input.length)).bits = bitString input := newKey_bits input
  rw [bits] at found
  exact ⟨record, by rw [Table.match, present]; exact found⟩

theorem add_correct (valid : t.Valid) {pre : Key} (backed : pre.Valid) (actions : List A) :
    ∃ after, t.add pre actions = .ok after ∧ after.Valid ∧
      after.stored = Function.update t.stored pre.bits (some actions) := by
  obtain ⟨top, present, nothing⟩ := valid.root
  have size := Key.bits_length backed
  obtain ⟨after, run, afterPre, good, inserted⟩ := Level.addLoop_correct actions present valid.good
    backed (by simp [nothing]) (by rw [size, nothing]; exact Nat.lt_succ_self _)
  refine ⟨{ root := after }, by simp [add, run], ⟨⟨top, afterPre, nothing⟩, good⟩, ?_⟩
  funext word
  simp only [stored, inserted, Trie.lookup_insert, Function.update_apply]

def hasLevel (t : Table A) (word : List Bool) : Bool :=
  t.root.toTrie.hasNode word

theorem remove_cases (valid : t.Valid) {pre : Key} (backed : pre.Valid)
    (nonempty : 0 < pre.bitCount) :
    ((∃ message, t.remove pre = .error message) ∧ t.hasLevel pre.bits = false ∧
        t.stored pre.bits = none) ∨
      ∃ after, t.remove pre = .ok after ∧ t.hasLevel pre.bits = true ∧ after.Valid ∧
        after.stored = Function.update t.stored pre.bits none := by
  obtain ⟨top, present, nothing⟩ := valid.root
  have size := Key.bits_length backed
  have start : Level.Fits t.root [] := valid.good
  rcases Level.descend_correct present start backed (by simp [nothing]) with
    ⟨⟨message, failed⟩, absent⟩ | ⟨here, between, stop, there, found, fits, atRoot, clearedPre, erased⟩
  · exact Or.inl ⟨⟨message, by simp [remove, failed]⟩, absent⟩
  · rw [List.append_nil] at stop fits
    cases between with
    | nil =>
      have short := congrArg List.length (atRoot rfl)
      simp only [size, nothing, List.length_nil] at short
      omega
    | cons parent above =>
      obtain ⟨after, run, good, afterPre, held⟩ := Level.compress_correct
        (Level.clearResult_pre here ▸ found)
        (fits.replace (Level.clearResult_good fits.good) (Level.clearResult_startsWith here))
      refine Or.inr ⟨{ root := after }, by simp [remove, stop, run], there,
        ⟨⟨top, afterPre.trans clearedPre, nothing⟩, good⟩, ?_⟩
      funext word
      simp only [stored, held, erased, Function.update_apply]

theorem remove_correct (valid : t.Valid) {pre : Key} (backed : pre.Valid)
    (nonempty : 0 < pre.bitCount) :
    ((∃ message, t.remove pre = .error message) ∧ t.stored pre.bits = none) ∨
      ∃ after, t.remove pre = .ok after ∧ after.Valid ∧
        after.stored = Function.update t.stored pre.bits none := by
  rcases remove_cases valid backed nonempty with
    ⟨failed, -, absent⟩ | ⟨after, removed, -, afterValid, held⟩
  · exact Or.inl ⟨failed, absent⟩
  · exact Or.inr ⟨after, removed, afterValid, held⟩

abbrev BackedKey := { pre : Key // pre.Valid }

inductive Op (A : Type) where
  | add (pre : BackedKey) (actions : List A)
  | remove (pre : BackedKey) (nonempty : 0 < pre.val.bitCount)
  | clear

def step (t : Table A) : Op A → Outcome (Table A)
  | .add pre actions => t.add pre actions
  | .remove pre _ =>
    match t.remove pre with
    | .error _ => .ok t
    | outcome => outcome
  | .clear => .ok t.clear

def run (t : Table A) : List (Op A) → Outcome (Table A)
  | [] => .ok t
  | op :: ops => do (← t.step op).run ops

def Op.apply (held : Stored A) : Op A → Stored A
  | .add pre actions => Function.update held pre.val.bits (some actions)
  | .remove pre _ => Function.update held pre.val.bits none
  | .clear => fun _ => none

def Op.applyAll (ops : List (Op A)) : Stored A :=
  ops.foldl Op.apply fun _ => none

theorem step_correct (valid : t.Valid) (op : Op A) :
    ∃ after, t.step op = .ok after ∧ after.Valid ∧ after.stored = op.apply t.stored := by
  cases op with
  | add pre actions => exact add_correct valid pre.property actions
  | remove pre nonempty =>
    rcases remove_correct valid pre.property nonempty with
      ⟨⟨message, failed⟩, absent⟩ | ⟨after, removed, afterValid, held⟩
    · exact ⟨t, by simp [step, failed], valid, (Function.update_eq_self_iff.mpr absent.symm).symm⟩
    · exact ⟨after, by simp [step, removed], afterValid, held⟩
  | clear => exact ⟨empty, rfl, empty_valid, funext empty_stored⟩

theorem run_correct (valid : t.Valid) (ops : List (Op A)) :
    ∃ after, t.run ops = .ok after ∧ after.Valid ∧ after.stored = ops.foldl Op.apply t.stored := by
  induction ops generalizing t with
  | nil => exact ⟨t, rfl, valid, rfl⟩
  | cons op ops ih =>
    obtain ⟨next, stepped, nextValid, nextStored⟩ := step_correct valid op
    obtain ⟨after, rest, afterValid, held⟩ := ih nextValid
    refine ⟨after, by simp [run, stepped, rest], afterValid, ?_⟩
    rw [held, nextStored, List.foldl_cons]

theorem match_run_longest (ops : List (Op A)) (input : List UInt8) :
    ∃ t record actions, (empty : Table A).run ops = .ok t ∧ t.match input = .ok (record, actions) ∧
      ((∃ pre, pre <+: bitString input ∧ Op.applyAll ops pre = some actions ∧
          ∀ other, other <+: bitString input → Op.applyAll ops other ≠ none →
            other.length ≤ pre.length) ∨
        actions = [] ∧ ∀ pre, pre <+: bitString input → Op.applyAll ops pre = none) := by
  obtain ⟨t, ran, valid, held⟩ := run_correct (empty_valid (A := A)) ops
  have all : t.stored = Op.applyAll ops := by
    rw [held, Op.applyAll]
    congr
    funext word
    exact empty_stored word
  obtain ⟨record, found⟩ := match_correct valid input
  rw [all] at found
  refine ⟨t, record, _, ran, found, ?_⟩
  cases longest : longestMatch (Op.applyAll ops) (bitString input) with
  | none => exact Or.inr ⟨rfl, longestMatch_eq_none.mp longest⟩
  | some actions => exact Or.inl (longestMatch_eq_some.mp longest)

end Table

end

variable {A : Type}

def Level.entries : Level A → Key → Outcome (List (Key × List A))
  | .nil, _ => .panic
  | .node pre result child, parent => do
    let full ← combine parent pre
    let first ← (if (child false).pre?.isSome then entries (child false) full else .ok [])
    let second ← (if (child true).pre?.isSome then entries (child true) full else .ok [])
    return (result.toList.map fun actions => (full, actions)) ++ (first ++ second)

variable (text : List A → String)

def showEntry (entry : Key × List A) : Outcome String := do
  let shown ← entry.1.string
  return "<prefix=" ++ shown ++ ">;<actions=" ++ text entry.2 ++ ">;"

def Table.entries (t : Table A) : Outcome (List String) :=
  match t.root.pre? with
  | none => .panic
  | some pre => do (← t.root.entries pre).mapM (showEntry text)

namespace Level

theorem entries_correct {level : Level A} {parent : Key} (good : level.Good)
    (present : level.pre?.isSome) (backed : parent.Valid) :
    ∃ list, level.entries parent = .ok list ∧ (∀ entry ∈ list, entry.1.Valid) ∧
      list.map (fun entry => (entry.1.bits, entry.2)) =
        (level.toTrie.listing [false, true]).map fun entry => (parent.bits ++ entry.1, entry.2) := by
  induction level generalizing parent with
  | nil => cases present
  | node pre result child ih =>
    obtain ⟨full, combined, fullValid, fullBits⟩ := combine_correct backed good.1
    -- The list of one child, empty if there is none.
    have side (b : Bool) : ∃ list,
        (if (child b).pre?.isSome then (child b).entries full else .ok []) = .ok list ∧
          (∀ entry ∈ list, entry.1.Valid) ∧
          list.map (fun entry => (entry.1.bits, entry.2)) =
            ((child b).toTrie.listing [false, true]).map fun entry =>
              (full.bits ++ entry.1, entry.2) := by
      by_cases there : (child b).pre?.isSome
      · rw [if_pos there]
        exact ih b (good.2 b).2 there fullValid
      · rw [if_neg there]
        cases empty : child b with
        | nil => exact ⟨[], rfl, by simp, rfl⟩
        | node pre result below => simp [empty, pre?] at there
    obtain ⟨first, firstRun, firstValid, firstBits⟩ := side false
    obtain ⟨second, secondRun, secondValid, secondBits⟩ := side true
    refine ⟨(result.toList.map fun actions => (full, actions)) ++ (first ++ second), ?_, ?_, ?_⟩
    · simp only [entries, combined, Outcome.ok_bind, firstRun, secondRun, Outcome.pure_eq]
    · intro entry listed
      rcases List.mem_append.mp listed with own | below
      · obtain ⟨actions, -, rfl⟩ := List.mem_map.mp own
        exact fullValid
      · exact (List.mem_append.mp below).elim (firstValid entry) (secondValid entry)
    · simp [toTrie, Trie.listing, fullBits, firstBits, secondBits, Function.comp_def]

end Level

def Shows (entry : List Bool × List A) (shown : String) : Prop :=
  ∃ pre : Key, pre.Valid ∧ pre.bits = entry.1 ∧ showEntry text (pre, entry.2) = .ok shown

theorem showEntries {list : List (Key × List A)}
    (backed : ∀ entry ∈ list, entry.1.Valid) :
    ∃ shown, list.mapM (showEntry text) = .ok shown ∧
      List.Forall₂ (Shows text) (list.map fun entry => (entry.1.bits, entry.2)) shown := by
  induction list with
  | nil => exact ⟨[], rfl, .nil⟩
  | cons entry list ih =>
    obtain ⟨first, rest⟩ := List.forall_mem_cons.mp backed
    obtain ⟨shown, run, shows⟩ := ih rest
    obtain ⟨prefixText, printed⟩ := entry.1.string_correct first
    have one : showEntry text entry =
        .ok ("<prefix=" ++ prefixText ++ ">;<actions=" ++ text entry.2 ++ ">;") := by
      simp [showEntry, printed]
    refine ⟨_, ?_, .cons ⟨entry.1, first, rfl, one⟩ shows⟩
    simp only [List.mapM_cons, one, run, Outcome.ok_bind, Outcome.pure_eq]

theorem entries_run (text : List A → String) (ops : List (Table.Op A)) :
    ∃ t listed shown, (Table.empty : Table A).run ops = .ok t ∧ t.entries text = .ok shown ∧
      List.Forall₂ (Shows text) listed shown ∧ (listed.map Prod.fst).Nodup ∧
      ∀ word actions, (word, actions) ∈ listed ↔ Table.Op.applyAll ops word = some actions := by
  obtain ⟨t, ran, valid, held⟩ := Table.run_correct (Table.empty_valid (A := A)) ops
  obtain ⟨pre, present, nothing⟩ := valid.root
  have backed : pre.Valid := valid.good.pre_valid present
  obtain ⟨list, listed, listValid, bits⟩ :=
    Level.entries_correct valid.good (by simp [present]) backed
  obtain ⟨shown, printed, shows⟩ := showEntries text listValid
  have trie : list.map (fun entry => (entry.1.bits, entry.2)) =
      t.root.toTrie.listing [false, true] := by
    simp [bits, nothing]
  refine ⟨t, t.root.toTrie.listing [false, true], shown, ran, ?_, trie ▸ shows, ?_, ?_⟩
  · simp only [Table.entries, present, listed, Outcome.ok_bind, printed]
  · exact Trie.nodup_listing valid.good.wellFormed (by decide)
  · intro word actions
    have start : (Table.empty : Table A).stored = fun _ => none := funext Table.empty_stored
    rw [start] at held
    rw [Trie.mem_listing valid.good.wellFormed (by decide)]
    exact Eq.congr_left (congrFun held word)

end Lemming.Prefix
