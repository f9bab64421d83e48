import Lemming.Prefix.Key

set_option autoImplicit false

namespace Lemming.Prefix

open Shared

section

variable {A : Type}

inductive Level (A : Type) where
  | nil
  | node (pre : Key) (result : Option (List A)) (child : Bool → Level A)

namespace Level

def pre? : Level A → Option Key
  | .nil => none
  | .node pre _ _ => some pre

def newLevel (pre : Key) : Level A :=
  .node pre none fun _ => .nil

def setChild (parent : Level A) (b : Bool) (level : Level A) : Level A :=
  match parent with
  | .nil => .nil
  | .node pre result child => .node pre result (Function.update child b level)

def setResult (level : Level A) (actions : List A) : Level A :=
  match level with
  | .nil => .nil
  | .node pre _ child => .node pre (some actions) child

def clearResult : Level A → Level A
  | .nil => .nil
  | .node pre _ child => .node pre none child

-- The recursion takes `child b` itself, so the loop is structural; entering it at `nil` is the
-- dereference of a nil level.
def matchLoop (key record : Key) (actions : List A) : Level A → Outcome (Key × List A)
  | .nil => .panic
  | .node pre result child => do
    let record := if result.isSome then pre else record
    let actions := result.getD actions
    if ← key.isEqual pre then return (record, actions)
    let key := key.trimPrefix pre
    let b ← key.bit 0
    match (child b).pre? with
    | none => return (record, actions)
    | some next =>
      if !(← key.hasPrefix next) then return (record, actions)
      matchLoop key record actions (child b)

def split (p childPre : Key) (result : Option (List A)) (child : Bool → Level A) :
    Outcome (Level A) := do
  let trimmed := childPre.trimPrefix p
  let b ← trimmed.bit 0
  return (newLevel p).setChild b (.node trimmed result child)

-- The loop of `add`. Every iteration consumes a bit of the key, which bounds their number.
def addLoop (actions : List A) : Nat → Level A → Key → Outcome (Level A)
  | 0, _, _ => .diverge
  | _ + 1, .nil, _ => .panic
  | fuel + 1, .node pre result child, key => do
    if ← key.isEqual pre then return (node pre result child).setResult actions
    let key := key.trimPrefix pre
    let b ← key.bit 0
    match child b with
    | .nil => return (node pre result child).setChild b ((newLevel key).setResult actions)
    | .node childPre childResult below =>
      if ← key.hasPrefix childPre then
        let after ← addLoop actions fuel (.node childPre childResult below) key
        return (node pre result child).setChild b after
      else
        let p ← prefixKey childPre key
        let side ← p.bit 0
        let after ← addLoop actions fuel (← split p childPre childResult below) key
        return (node pre result child).setChild side after

structure Frame (A : Type) where
  pre : Key
  result : Option (List A)
  child : Bool → Level A
  side : Bool

def Frame.plug (frame : Frame A) (level : Level A) : Level A :=
  (node frame.pre frame.result frame.child).setChild frame.side level

def plug : Level A → List (Frame A) → Level A
  | level, [] => level
  | level, parent :: above => plug (parent.plug level) above

def descend (key : Key) (above : List (Frame A)) :
    Level A → Outcome (Level A × List (Frame A))
  | .nil => .panic
  | .node pre result child => do
    if ← key.isEqual pre then return (.node pre result child, above)
    let key := key.trimPrefix pre
    let b ← key.bit 0
    match (child b).pre? with
    | none => .error ("prefix: Unable to find entry for prefix " ++ (← key.string))
    | some next =>
      if !(← key.hasPrefix next) then
        .error ("prefix: Unable to find entry for prefix " ++ (← key.string) ++ " from level")
      else
        descend key ({ pre, result, child, side := b } :: above) (child b)

def fold (pre : Key) (first second : Level A) : Outcome (Option (Level A)) :=
  match first, second with
  | .nil, .nil => .ok (some .nil)
  | .node childPre result child, .nil => do return some (.node (← combine pre childPre) result child)
  | .nil, .node childPre result child => do return some (.node (← combine pre childPre) result child)
  | .node _ _ _, .node _ _ _ => .ok none

-- With no parent left the level is the root itself, whose parent is nil; a level below the root is
-- left as it is.
def compress : List (Frame A) → Level A → Outcome (Level A)
  | _, .nil => .panic
  | above, .node pre (some actions) child => .ok (plug (.node pre (some actions) child) above)
  | [], .node pre none child => do
    match ← fold pre (child false) (child true) with
    | none => return .node pre none child
    | some _ => .panic
  | [root], .node pre none child => .ok (root.plug (.node pre none child))
  | parent :: grandparent :: above, .node pre none child => do
    match ← fold pre (child false) (child true) with
    | none => return plug (.node pre none child) (parent :: grandparent :: above)
    | some folded =>
      let b ← pre.bit 0
      compress (grandparent :: above) ((parent.plug (.node pre none child)).setChild b folded)

end Level

end

variable {A : Type}

theorem Key.trim_cases {key pre : Key} (valid : key.Valid) (preValid : pre.Valid)
    (included : pre.bits <+: key.bits) :
    (key.bits = pre.bits ∧ key.isEqual pre = .ok true) ∨
      ∃ s rest, key.bits = pre.bits ++ s :: rest ∧ key.isEqual pre = .ok false ∧
        (key.trimPrefix pre).Valid ∧ (key.trimPrefix pre).bits = s :: rest ∧
        (key.trimPrefix pre).bit 0 = .ok s := by
  have size := bits_length valid
  have preSize := bits_length preValid
  have shorter := included.length_le
  obtain ⟨tail, split⟩ := included
  cases tail with
  | nil =>
    have same : key.bits = pre.bits := by simpa using split.symm
    exact Or.inl ⟨same, by simp [isEqual_correct valid preValid, same]⟩
  | cons s rest =>
    have different : key.bits ≠ pre.bits := by simp [← split]
    have trimmed : (key.trimPrefix pre).bits = s :: rest := by
      rw [trimPrefix_bits, ← split, ← preSize, List.drop_left]
    exact Or.inr ⟨s, rest, split.symm, by simp [isEqual_correct valid preValid, different],
      trimPrefix_valid valid (by omega), trimmed, bit_correct (by simp [trimmed])⟩

namespace Level

def toTrie : Level A → Trie Bool (List A)
  | .nil => .nil
  | .node pre result child => .node pre.bits result fun b => (child b).toTrie

def Good : Level A → Prop
  | .nil => True
  | .node pre _ child => pre.Valid ∧ ∀ b, (child b).toTrie.StartsWith b ∧ (child b).Good

variable {level : Level A}

theorem Good.wellFormed (good : level.Good) : level.toTrie.WellFormed := by
  induction level with
  | nil => trivial
  | node pre result child ih => exact fun b => ⟨(good.2 b).1, ih b (good.2 b).2⟩

theorem toTrie_setChild (pre : Key) (result : Option (List A)) (child : Bool → Level A) (b : Bool)
    (level : Level A) :
    ((node pre result child).setChild b level).toTrie =
      .node pre.bits result (Function.update (fun s => (child s).toTrie) b level.toTrie) := by
  have children : (fun s => (Function.update child b level s).toTrie) =
      Function.update (fun s => (child s).toTrie) b level.toTrie := by
    funext s
    by_cases same : s = b
    · subst same
      simp
    · simp [same]
  simp [setChild, toTrie, children]

variable {child : Bool → Level A}

theorem setChild_good {pre : Key} {result : Option (List A)} {b : Bool} (valid : pre.Valid)
    (others : ∀ s, s ≠ b → (child s).toTrie.StartsWith s ∧ (child s).Good)
    (starts : level.toTrie.StartsWith b) (good : level.Good) :
    ((node pre result child).setChild b level).Good := by
  refine ⟨valid, fun s => ?_⟩
  by_cases same : s = b
  · subst same
    simpa using ⟨starts, good⟩
  · simpa [same] using others s same

theorem newLevel_good (A : Type) {pre : Key} (valid : pre.Valid) : (newLevel pre : Level A).Good :=
  ⟨valid, fun _ => ⟨trivial, trivial⟩⟩

theorem Good.pre_valid {pre : Key} (good : level.Good)
    (present : level.pre? = some pre) : pre.Valid := by
  cases level with
  | nil => cases present
  | node here result child =>
    cases present
    exact good.1

theorem absent_nil (absent : level.pre? = none) (word : List Bool) :
    level.toTrie.hasNode word = false ∧ level.toTrie.lookup word = none := by
  cases level with
  | nil => exact ⟨rfl, rfl⟩
  | node here result child => cases absent

theorem absent_apart {pre : Key} {word : List Bool} (present : level.pre? = some pre)
    (apart : ¬ pre.bits <+: word) :
    level.toTrie.hasNode word = false ∧ level.toTrie.lookup word = none := by
  cases level with
  | nil => exact ⟨rfl, rfl⟩
  | node here result child =>
    cases present
    exact ⟨Trie.hasNode_outside apart, Trie.lookup_outside apart⟩

theorem matchLoop_correct (key record : Key) (actions : List A) {pre : Key}
    (present : level.pre? = some pre) (good : level.Good) (valid : key.Valid)
    (included : pre.bits <+: key.bits) :
    ∃ entry, matchLoop key record actions level =
      .ok (entry, (longestMatch level.toTrie.lookup key.bits).getD actions) := by
  induction level generalizing key record actions pre with
  | nil => cases present
  | node here result child ih =>
    cases present
    have matching := Trie.longestMatch_node good.wellFormed
    rw [matchLoop, toTrie]
    rcases Key.trim_cases valid good.1 included with ⟨same, equal⟩ |
      ⟨s, rest, split, equal, trimmedValid, trimmed, first⟩
    · have found := matching []
      rw [List.append_nil] at found
      simp [equal, same, found]
    · rw [split, matching (s :: rest)]
      simp only [equal, first, Outcome.ok_bind, Bool.false_eq_true, if_false]
      cases next : (child s).pre? with
      | none =>
        have absent : longestMatch (child s).toTrie.lookup (s :: rest) = none :=
          longestMatch_eq_none.mpr fun word _ => (absent_nil next word).2
        simp [absent]
      | some nextPre =>
        have nextGood := (good.2 s).2
        simp only [Key.hasPrefix_correct trimmedValid (nextGood.pre_valid next), trimmed,
          Outcome.ok_bind]
        by_cases deeper : nextPre.bits <+: s :: rest
        · obtain ⟨entry, found⟩ := ih s (key.trimPrefix here)
            (if result.isSome then here else record) (result.getD actions) next nextGood
            trimmedValid (trimmed ▸ deeper)
          refine ⟨entry, ?_⟩
          simp only [deeper, decide_true, Bool.not_true, Bool.false_eq_true, if_false]
          rw [found, trimmed]
          cases longestMatch (child s).toTrie.lookup (s :: rest) <;> rfl
        · have absent : longestMatch (child s).toTrie.lookup (s :: rest) = none :=
            longestMatch_eq_none.mpr fun word shorter =>
              (absent_apart next fun inside => deeper (inside.trans shorter)).2
          simp [deeper, absent]

theorem split_correct {p childPre key : Key} {result : Option (List A)}
    (good : (node childPre result child).Good) (valid : p.Valid)
    (common : p.bits = commonPrefix childPre.bits key.bits) (leaves : ¬ childPre.bits <+: key.bits) :
    ∃ fork, split p childPre result child = .ok fork ∧ fork.Good ∧ fork.pre? = some p ∧
      ∀ actions, fork.toTrie.insert actions key.bits =
        (node childPre result child).toTrie.insert actions key.bits := by
  have shared : p.bits <+: childPre.bits := common ▸ commonPrefix_prefix_left _ _
  have proper : childPre.bits ≠ p.bits := fun same =>
    leaves (same ▸ common ▸ commonPrefix_prefix_right _ _)
  rcases Key.trim_cases good.1 valid shared with ⟨same, -⟩ |
    ⟨s, tail, whole, -, trimmedValid, trimmed, first⟩
  · exact absurd same proper
  have starts : (node (childPre.trimPrefix p) result child).toTrie.StartsWith s := ⟨tail, trimmed⟩
  refine ⟨(newLevel p).setChild s (.node (childPre.trimPrefix p) result child),
    by rw [split, first]; rfl,
    setChild_good valid (fun _ _ => ⟨trivial, trivial⟩) starts ⟨trimmedValid, good.2⟩, rfl, ?_⟩
  intro actions
  obtain ⟨more, meets⟩ : p.bits <+: key.bits := common ▸ commonPrefix_prefix_right _ _
  simp only [newLevel, toTrie_setChild, toTrie, trimmed, whole, ← meets]
  cases more with
  | nil =>
    rw [List.append_nil, Trie.insert_label, Trie.insert_inside]
  | cons r more =>
    have apart : s ≠ r := by
      rintro rfl
      have longer : p.bits ++ [s] <+: p.bits := by
        nth_rewrite 2 [common]
        exact prefix_commonPrefix ⟨tail, by simp [whole]⟩ ⟨more, by simp [← meets]⟩
      have bound := longer.length_le
      simp only [List.length_append, List.length_singleton] at bound
      omega
    rw [Trie.insert_below, Trie.insert_fork actions _ _ p.bits tail more apart,
      Function.update_of_ne (Ne.symm apart)]
    rfl

theorem addLoop_correct (actions : List A) {fuel : Nat} {pre key : Key}
    (present : level.pre? = some pre) (good : level.Good) (valid : key.Valid)
    (included : pre.bits <+: key.bits) (enough : key.bits.length < fuel + pre.bits.length) :
    ∃ after, addLoop actions fuel level key = .ok after ∧ after.pre? = some pre ∧ after.Good ∧
      after.toTrie = level.toTrie.insert actions key.bits := by
  induction fuel generalizing level pre key with
  | zero =>
    have shorter := included.length_le
    omega
  | succ fuel ih =>
    cases level with
    | nil => cases present
    | node _ result child =>
      cases present
      rcases Key.trim_cases valid good.1 included with ⟨same, equal⟩ |
        ⟨s, rest, split, equal, trimmedValid, trimmed, first⟩
      · refine ⟨node pre (some actions) child, by simp [addLoop, equal, setResult], rfl, good, ?_⟩
        rw [same, toTrie, toTrie, Trie.insert_label]
      have short : rest.length < fuel := by
        simp only [split, List.length_append, List.length_cons] at enough
        omega
      have inserted : (node pre result child).toTrie.insert actions key.bits =
          .node pre.bits result (Function.update (fun b => (child b).toTrie) s
            ((child s).toTrie.insert actions (s :: rest))) := by
        rw [split, toTrie, Trie.insert_below]
      have starts := (good.2 s).1
      have others : ∀ b, b ≠ s → (child b).toTrie.StartsWith b ∧ (child b).Good :=
        fun b _ => good.2 b
      rw [inserted]
      cases next : child s with
      | nil =>
        have leaf : ((newLevel (key.trimPrefix pre)).setResult actions : Level A).toTrie =
            (nil : Level A).toTrie.insert actions (s :: rest) := by
          simp only [newLevel, setResult, toTrie, Trie.insert, trimmed]
        refine ⟨_, by simp [addLoop, equal, first, next]; rfl, rfl, ?_, ?_⟩
        · exact setChild_good good.1 others (leaf ▸ ⟨rest, rfl⟩)
            ⟨trimmedValid, fun _ => ⟨trivial, trivial⟩⟩
        · rw [toTrie_setChild, leaf]
      | node childPre childResult below =>
        have nextGood := (good.2 s).2
        rw [next] at nextGood starts
        have finish (side : Level A) (sideTrie : side.toTrie =
            (node childPre childResult below).toTrie.insert actions (s :: rest))
            (sideGood : side.Good) :
            ((node pre result child).setChild s side).Good ∧
              ((node pre result child).setChild s side).toTrie = .node pre.bits result
                (Function.update (fun b => (child b).toTrie) s
                  ((node childPre childResult below).toTrie.insert actions (s :: rest))) := by
          refine ⟨setChild_good good.1 others ?_ sideGood, by rw [toTrie_setChild, sideTrie]⟩
          exact sideTrie ▸ Trie.insert_startsWith actions rest starts
        obtain ⟨childTail, childBits⟩ := starts
        by_cases deeper : childPre.bits <+: s :: rest
        · obtain ⟨after, run, -, afterGood, afterTrie⟩ := ih rfl nextGood trimmedValid
            (trimmed ▸ deeper) (by rw [trimmed, childBits]; simp; omega)
          rw [trimmed] at afterTrie
          refine ⟨_, ?_, rfl, finish after afterTrie afterGood⟩
          simp [addLoop, equal, first, next, Key.hasPrefix_correct trimmedValid nextGood.1, trimmed,
            deeper, run]
        · obtain ⟨p, shared, pValid, common⟩ := prefixKey_correct nextGood.1 trimmedValid
          obtain ⟨fork, forked, forkGood, forkPre, forkInsert⟩ :=
            split_correct nextGood pValid common (trimmed ▸ deeper)
          have pBits : p.bits = s :: commonPrefix childTail rest := by
            rw [common, trimmed, childBits]
            simp [commonPrefix]
          obtain ⟨after, run, -, afterGood, afterTrie⟩ := ih forkPre forkGood trimmedValid
            (common ▸ commonPrefix_prefix_right _ _) (by rw [trimmed, pBits]; simp; omega)
          rw [forkInsert, trimmed] at afterTrie
          have side : p.bit 0 = .ok s := Key.bit_correct (by simp [pBits])
          refine ⟨_, ?_, rfl, finish after afterTrie afterGood⟩
          simp [addLoop, equal, first, next, Key.hasPrefix_correct trimmedValid nextGood.1, trimmed,
            deeper, shared, side, forked, run]

theorem clearResult_pre (level : Level A) : level.clearResult.pre? = level.pre? := by
  cases level <;> rfl

theorem clearResult_good (good : level.Good) : level.clearResult.Good := by
  cases level <;> exact good

theorem clearResult_startsWith (level : Level A) (s : Bool) (starts : level.toTrie.StartsWith s) :
    level.clearResult.toTrie.StartsWith s := by
  cases level <;> exact starts

def Fits : Level A → List (Frame A) → Prop
  | level, [] => level.Good
  | level, parent :: above => level.Good ∧ level.toTrie.StartsWith parent.side ∧
      parent.pre.Valid ∧
      (∀ s, s ≠ parent.side → (parent.child s).toTrie.StartsWith s ∧ (parent.child s).Good) ∧
      Fits (parent.plug level) above

variable {above : List (Frame A)}

theorem Fits.good (fits : Fits level above) :
    level.Good := by
  cases above with
  | nil => exact fits
  | cons parent above => exact fits.1

theorem Fits.plug (fits : Fits level above) :
    (plug level above).Good := by
  induction above generalizing level with
  | nil => exact fits
  | cons parent above ih => exact ih fits.2.2.2.2

theorem Fits.replace {other : Level A} (fits : Fits level above) (good : other.Good)
    (starts : ∀ s, level.toTrie.StartsWith s → other.toTrie.StartsWith s) : Fits other above := by
  induction above generalizing level other with
  | nil => exact good
  | cons parent above ih =>
    obtain ⟨-, side, valid, others, rest⟩ := fits
    refine ⟨good, starts _ side, valid, others, ?_⟩
    exact ih rest (setChild_good valid others (starts _ side) good) fun _ => id

theorem plug_lookup {first second : Level A} (above : List (Frame A))
    (same : ∀ word, first.toTrie.lookup word = second.toTrie.lookup word) (word : List Bool) :
    (plug first above).toTrie.lookup word = (plug second above).toTrie.lookup word := by
  induction above generalizing first second with
  | nil => exact same word
  | cons parent above ih =>
    apply ih
    intro word
    rw [Frame.plug, Frame.plug, toTrie_setChild, toTrie_setChild]
    apply Trie.lookup_node_congr
    intro s word
    by_cases side : s = parent.side
    · subst side
      simpa using same word
    · simp [side]

theorem plug_pre {first second : Level A}
    (same : first.pre? = second.pre?) : (plug first above).pre? = (plug second above).pre? := by
  induction above generalizing first second with
  | nil => exact same
  | cons parent above ih => exact ih rfl

theorem plug_append (level : Level A) (first second : List (Frame A)) :
    plug level (first ++ second) = plug (plug level first) second := by
  induction first generalizing level with
  | nil => rfl
  | cons parent above ih => exact ih (parent.plug level)

theorem descend_correct {pre key : Key} (present : level.pre? = some pre) (fits : Fits level above)
    (valid : key.Valid) (included : pre.bits <+: key.bits) :
    ((∃ message, descend key above level = .error message) ∧
        level.toTrie.hasNode key.bits = false ∧ level.toTrie.lookup key.bits = none) ∨
      ∃ here between, descend key above level = .ok (here, between ++ above) ∧
        level.toTrie.hasNode key.bits = true ∧ here.pre? ≠ none ∧ Fits here (between ++ above) ∧
        (between = [] → key.bits = pre.bits) ∧
        (plug here.clearResult between).pre? = some pre ∧
        ∀ word, (plug here.clearResult between).toTrie.lookup word =
          if word = key.bits then none else level.toTrie.lookup word := by
  induction level generalizing above pre key with
  | nil => cases present
  | node here result child ih =>
    cases present
    have good := fits.good
    rcases Key.trim_cases valid good.1 included with ⟨same, equal⟩ |
      ⟨s, rest, split, equal, trimmedValid, trimmed, first⟩
    · rw [same]
      refine Or.inr ⟨node here result child, [], by simp [descend, equal], Trie.hasNode_label,
        by simp [pre?], fits, fun _ => rfl, rfl, ?_⟩
      exact Trie.lookup_erase_label here.bits result _
    obtain ⟨shown, written⟩ := (key.trimPrefix here).string_correct trimmedValid
    have hasBelow : (node here result child).toTrie.hasNode key.bits =
        (child s).toTrie.hasNode (s :: rest) := by
      rw [split]
      exact Trie.hasNode_below
    have below : (node here result child).toTrie.lookup key.bits =
        (child s).toTrie.lookup (s :: rest) := by
      rw [split]
      exact Trie.lookup_below
    rw [hasBelow, below]
    -- The walk stops where no child begins with the rest of the key.
    cases next : (child s).pre? with
    | none =>
      refine Or.inl ⟨?_, absent_nil next _⟩
      simp [descend, equal, first, next, written]
    | some nextPre =>
      have nextValid := (good.2 s).2.pre_valid next
      have starts := Key.hasPrefix_correct trimmedValid nextValid
      rw [trimmed] at starts
      by_cases deeper : nextPre.bits <+: s :: rest
      · have nextFits : Fits (child s) ({ pre := here, result, child, side := s } :: above) :=
          ⟨(good.2 s).2, (good.2 s).1, good.1, fun b _ => good.2 b,
            by simpa [Frame.plug, setChild] using fits⟩
        have run : descend key above (node here result child) = descend (key.trimPrefix here)
            ({ pre := here, result, child, side := s } :: above) (child s) := by
          simp [descend, equal, first, next, starts, deeper]
        rw [run]
        rcases ih s next nextFits trimmedValid (trimmed ▸ deeper) with ⟨failed, absent⟩ |
          ⟨found, between, stop, hasNode, node, foundFits, -, -, erased⟩
        · exact Or.inl ⟨failed, trimmed ▸ absent⟩
        · refine Or.inr ⟨found, between ++ [{ pre := here, result, child, side := s }],
            by simpa using stop, trimmed ▸ hasNode, node, by simpa using foundFits, by simp,
            by rw [plug_append]; rfl, fun word => ?_⟩
          rw [plug_append, split]
          rw [trimmed] at erased
          rw [plug, plug, Frame.plug, toTrie_setChild]
          exact Trie.lookup_erase_below erased word
      · refine Or.inl ⟨?_, absent_apart next deeper⟩
        simp [descend, equal, first, next, starts, deeper, written]

theorem fold_correct {pre : Key} (good : (node pre none child).Good) :
    (fold pre (child false) (child true) = .ok none ∧ ∀ s, child s ≠ nil) ∨
      ∃ folded, fold pre (child false) (child true) = .ok (some folded) ∧ (∃ s, child s = nil) ∧
        (folded = nil ∨ ∃ s childPre whole result below,
          child s = node childPre result below ∧ folded = node whole result below) ∧ folded.Good ∧
        (∀ s, (node pre none child).toTrie.StartsWith s → folded.toTrie.StartsWith s) ∧
        ∀ word, folded.toTrie.lookup word = (node pre none child).toTrie.lookup word := by
  have merge (s : Bool) (childPre : Key) (result : Option (List A)) (below : Bool → Level A)
      (only : child s = node childPre result below) (other : child (!s) = nil) :
      ∃ whole, combine pre childPre = .ok whole ∧ (node whole result below).Good ∧
        (∀ s, (node pre none child).toTrie.StartsWith s →
          (node whole result below).toTrie.StartsWith s) ∧
        ∀ word, (node whole result below).toTrie.lookup word =
          (node pre none child).toTrie.lookup word := by
    have childGood := (good.2 s).2
    obtain ⟨tail, childBits⟩ : (node childPre result below).toTrie.StartsWith s :=
      only ▸ (good.2 s).1
    rw [only] at childGood
    obtain ⟨whole, combined, valid, bits⟩ := combine_correct good.1 childGood.1
    have children : (fun b => (child b).toTrie) = Function.update (fun _ => Trie.nil) s
        (node childPre result below).toTrie := by
      funext b
      by_cases same : b = s
      · subst same
        rw [Function.update_self, only]
      · have opposite : b = !s := by
          cases b <;> cases s <;> simp at same ⊢
        rw [Function.update_of_ne same, opposite, other]
        rfl
    refine ⟨whole, combined, ⟨valid, childGood.2⟩, ?_, fun word => ?_⟩
    · rintro b ⟨rest, preBits⟩
      exact ⟨rest ++ childPre.bits, by rw [bits, preBits]; rfl⟩
    · rw [toTrie, toTrie, bits, childBits, children, toTrie, childBits]
      exact Trie.lookup_merge _ _ _ _ _ _
  cases left : child false with
  | nil =>
    cases right : child true with
    | nil =>
      refine Or.inr ⟨nil, rfl, ⟨false, left⟩, Or.inl rfl, trivial, fun _ _ => trivial, fun word => ?_⟩
      have children : (fun b => (child b).toTrie) = fun _ => Trie.nil := by
        funext b
        cases b
        · rw [left]; rfl
        · rw [right]; rfl
      rw [toTrie, toTrie, children, Trie.lookup_bare, Trie.lookup_nil]
    | node childPre result below =>
      obtain ⟨whole, combined, facts⟩ := merge true childPre result below right left
      exact Or.inr ⟨_, by simp [fold, combined], ⟨false, left⟩,
        Or.inr ⟨true, _, _, _, _, right, rfl⟩, facts⟩
  | node childPre result below =>
    cases right : child true with
    | nil =>
      obtain ⟨whole, combined, facts⟩ := merge false childPre result below left right
      exact Or.inr ⟨_, by simp [fold, combined], ⟨true, right⟩,
        Or.inr ⟨false, _, _, _, _, left, rfl⟩, facts⟩
    | node _ _ _ => exact Or.inl ⟨rfl, fun s => by cases s <;> simp [left, right]⟩

theorem compress_correct {parent : Frame A} (present : level.pre? ≠ none)
    (fits : Fits level (parent :: above)) :
    ∃ after, compress (parent :: above) level = .ok after ∧ after.Good ∧
      after.pre? = (plug level (parent :: above)).pre? ∧
      ∀ word, after.toTrie.lookup word = (plug level (parent :: above)).toTrie.lookup word := by
  induction above generalizing level parent with
  | nil =>
    cases level with
    | nil => exact absurd rfl present
    | node pre result child =>
      refine ⟨plug (node pre result child) [parent], ?_, fits.plug, rfl, fun _ => rfl⟩
      cases result <;> rfl
  | cons grandparent above ih =>
    cases level with
    | nil => exact absurd rfl present
    | node pre result child =>
      have stop : ∃ after, Outcome.ok (plug (node pre result child) (parent :: grandparent :: above)) =
          .ok after ∧ after.Good ∧
          after.pre? = (plug (node pre result child) (parent :: grandparent :: above)).pre? ∧
          ∀ word, after.toTrie.lookup word =
            (plug (node pre result child) (parent :: grandparent :: above)).toTrie.lookup word :=
        ⟨_, rfl, fits.plug, rfl, fun _ => rfl⟩
      cases result with
      | some actions => exact stop
      | none =>
        rcases fold_correct fits.good with ⟨broke, -⟩ | ⟨folded, continued, -, -, good, starts, same⟩
        · simpa [compress, broke] using stop
        · obtain ⟨tail, bits⟩ := fits.2.1
          have side : pre.bit 0 = .ok parent.side := Key.bit_correct (by simp [bits])
          have link : (parent.plug (node pre none child)).setChild parent.side folded =
              parent.plug folded := by
            simp [Frame.plug, setChild]
          have next : Fits (parent.plug folded) (grandparent :: above) :=
            (fits.replace good starts).2.2.2.2
          obtain ⟨after, run, afterGood, afterPre, held⟩ := ih (by simp [Frame.plug, setChild, pre?]) next
          refine ⟨after, ?_, afterGood, afterPre.trans (plug_pre rfl), fun word => ?_⟩
          · simpa [compress, continued, side, link] using run
          · rw [held word]
            exact plug_lookup (parent :: grandparent :: above) same word

end Level

end Lemming.Prefix
