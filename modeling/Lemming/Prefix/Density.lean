import Mathlib.Algebra.Group.Nat.Defs
import Lemming.Prefix.Removal

set_option autoImplicit false

namespace Lemming.Prefix

open Shared

variable {A : Type}

def Dense : Trie Bool (List A) → Nat → Prop
  | .nil, _ => True
  | .node _ result child, depth =>
    (depth = 0 → result = none → ∀ b, child b ≠ .nil) ∧ ∀ b, Dense (child b) (depth - 1)

def nodes : Trie Bool (List A) → Nat
  | .nil => 0
  | .node _ _ child => nodes (child false) + nodes (child true) + 1

def held (trie : Trie Bool (List A)) : Nat :=
  (trie.listing [false, true]).length

variable {trie : Trie Bool (List A)} {depth : Nat} {result : Option (List A)}
  {child : Bool → Trie Bool (List A)}

theorem held_node (label : List Bool) (result : Option (List A)) (child : Bool → Trie Bool (List A)) :
    held (.node label result child) = result.toList.length + held (child false) + held (child true) := by
  simp [held, Trie.listing, Nat.add_assoc]

theorem Dense.nodes_full (dense : Dense trie 0) :
    nodes trie ≤ 2 * held trie ∧ (trie ≠ .nil → nodes trie < 2 * held trie) := by
  induction trie with
  | nil => exact ⟨Nat.zero_le _, fun there => absurd rfl there⟩
  | node label result child ih =>
    obtain ⟨full, below⟩ := dense
    have left := ih false (below false)
    have right := ih true (below true)
    rw [nodes, held_node]
    cases result with
    | some actions =>
      simp only [Option.toList_some, List.length_singleton]
      omega
    | none =>
      have first := left.2 (full rfl rfl false)
      have second := right.2 (full rfl rfl true)
      simp only [Option.toList_none, List.length_nil]
      omega

theorem Dense.nodes_lt (dense : Dense trie depth) : nodes trie < 2 * held trie + 2 ^ depth := by
  induction depth generalizing trie with
  | zero => exact Nat.lt_succ_of_le dense.nodes_full.1
  | succ depth ih =>
    cases trie with
    | nil => exact Nat.lt_add_left _ (Nat.two_pow_pos _)
    | node label result child =>
      have left := ih (dense.2 false)
      have right := ih (dense.2 true)
      rw [nodes, held_node, Nat.pow_succ]
      omega

theorem dense_update {label : List Bool} {s : Bool} :
    Dense (.node label result (Function.update child s trie)) depth ↔
      (depth = 0 → result = none → trie ≠ .nil ∧ ∀ b, b ≠ s → child b ≠ .nil) ∧
        Dense trie (depth - 1) ∧ ∀ b, b ≠ s → Dense (child b) (depth - 1) := by
  rw [Dense, Function.forall_update_iff child fun _ below => below ≠ .nil,
    Function.forall_update_iff child fun _ below => Dense below (depth - 1)]

theorem dense_leaf (label : List Bool) (actions : List A) (depth : Nat) :
    Dense (.node label (some actions) fun _ => .nil) depth :=
  ⟨nofun, fun _ => trivial⟩

theorem insert_ne_nil (actions : List A) (trie : Trie Bool (List A)) (key : List Bool) :
    trie.insert actions key ≠ .nil := by
  cases trie with
  | nil => simp [Trie.insert]
  | node label result child =>
    rw [Trie.insert]
    split <;> simp

section Insert

variable {label key : List Bool} (actions : List A)

theorem dense_split (leaves : ¬ label <+: key) :
    Dense ((Trie.node label result child).insert actions key) depth ↔
      Dense (.node label result child) (depth - 1) := by
  rcases Trie.meet_cases label key with rfl | ⟨s, rest, rfl⟩ | ⟨s, tail, rfl⟩ |
    ⟨front, s, tail, r, more, apart, rfl, rfl⟩
  · exact absurd (List.prefix_refl _) leaves
  · exact absurd (List.prefix_append _ _) leaves
  · rw [Trie.insert_inside, dense_update]
    exact ⟨fun dense => dense.2.1, fun dense => ⟨nofun, dense, fun _ _ => trivial⟩⟩
  · have only (b : Bool) (other : b ≠ r) : b = s := by
      cases b <;> cases r <;> cases s <;> simp at apart other ⊢
    rw [Trie.insert_fork actions _ _ front tail more apart, dense_update]
    refine ⟨fun dense => ?_, fun dense => ⟨fun _ _ => ⟨nofun, fun b other => ?_⟩,
      dense_leaf _ _ _, fun b other => ?_⟩⟩
    · have below := dense.2.2 s apart
      rwa [Function.update_self] at below
    · rw [only b other, Function.update_self]
      nofun
    · rwa [only b other, Function.update_self]

theorem Dense.insert_below (dense : Dense (.node label result child) depth) (s : Bool)
    (rest : List Bool) :
    Dense ((Trie.node label result child).insert actions (label ++ s :: rest)) depth ↔
      Dense ((child s).insert actions (s :: rest)) (depth - 1) := by
  rw [Trie.insert_below, dense_update]
  exact ⟨fun inserted => inserted.2.1, fun inserted =>
    ⟨fun zero bare => ⟨insert_ne_nil _ _ _, fun b _ => dense.1 zero bare b⟩, inserted,
      fun b _ => dense.2 b⟩⟩

theorem Dense.insert_onward (dense : Dense (.node label result child) depth) (included : label <+: key)
    (below : ∀ s word, Dense ((child s).insert actions word) (depth - 1)) :
    Dense ((Trie.node label result child).insert actions key) depth := by
  obtain ⟨_ | ⟨s, rest⟩, rfl⟩ := included
  · rw [List.append_nil, Trie.insert_label]
    exact ⟨nofun, dense.2⟩
  · exact (dense.insert_below actions s rest).mpr (below s _)

theorem Dense.insert_full (dense : Dense trie 0) (key : List Bool) :
    Dense (trie.insert actions key) 0 := by
  induction trie generalizing key with
  | nil => exact dense_leaf _ _ _
  | node label result child ih =>
    by_cases included : label <+: key
    · exact dense.insert_onward actions included fun s => ih s (dense.2 s)
    · exact (dense_split actions included).mpr dense

theorem Dense.insert_child (dense : Dense (.node label result child) 1) :
    Dense ((Trie.node label result child).insert actions key) 1 ↔
      (¬ label <+: key → result = none → ∀ b, child b ≠ .nil) := by
  by_cases included : label <+: key
  · exact iff_of_true (dense.insert_onward actions included fun s => (dense.2 s).insert_full actions)
      fun leaves => absurd included leaves
  · rw [dense_split actions included]
    exact ⟨fun full _ => full.1 rfl, fun settled => ⟨fun _ => settled included, dense.2⟩⟩

end Insert

namespace Level

variable {level first after : Level A} {above : List (Frame A)}

theorem toTrie_eq_nil : level.toTrie = .nil ↔ level = .nil := by
  cases level <;> simp [toTrie]

theorem dense_node {pre : Key} {child : Bool → Level A} :
    Dense (node pre result child).toTrie depth ↔
      (depth = 0 → result = none → ∀ b, child b ≠ .nil) ∧ ∀ b, Dense (child b).toTrie (depth - 1) := by
  simp only [toTrie, Dense, Ne, toTrie_eq_nil]

theorem dense_frame {frame : Frame A} :
    Dense (frame.plug level).toTrie depth ↔
      (depth = 0 → frame.result = none → level ≠ .nil ∧ ∀ s, s ≠ frame.side → frame.child s ≠ .nil) ∧
        Dense level.toTrie (depth - 1) ∧
        ∀ s, s ≠ frame.side → Dense (frame.child s).toTrie (depth - 1) := by
  rw [Frame.plug, setChild, dense_node,
    Function.forall_update_iff frame.child fun _ below => below ≠ .nil,
    Function.forall_update_iff frame.child fun _ below => Dense below.toTrie (depth - 1)]

theorem dense_of_plug (dense : Dense (plug level above).toTrie depth) :
    Dense level.toTrie (depth - above.length) := by
  induction above generalizing level with
  | nil => exact dense
  | cons frame above ih =>
    rw [List.length_cons, ← Nat.sub_sub]
    exact (dense_frame.mp (ih dense)).2.1

theorem dense_replace (dense : Dense (plug first above).toTrie depth) (there : level ≠ .nil)
    (new : Dense level.toTrie (depth - above.length)) : Dense (plug level above).toTrie depth := by
  induction above generalizing first level with
  | nil => exact new
  | cons frame above ih =>
    rw [List.length_cons, ← Nat.sub_sub] at new
    have old : Dense (frame.plug first).toTrie _ := dense_of_plug dense
    obtain ⟨full, -, beside⟩ := dense_frame.mp old
    exact ih dense nofun
      (dense_frame.mpr ⟨fun deep bare => ⟨there, (full deep bare).2⟩, new, beside⟩)

section Compress

variable {pre : Key} {child : Bool → Level A}

theorem dense_stop (dense : Dense (plug first above).toTrie 2)
    (below : ∀ s, Dense (child s).toTrie (2 - above.length - 1))
    (settled : 2 ≤ above.length → result = none → ∀ s, child s ≠ .nil) :
    Dense (plug (.node pre result child) above).toTrie 2 :=
  dense_replace dense nofun (dense_node.mpr ⟨fun deep => settled (by omega), below⟩)

theorem compress_dense (fits : Fits (.node pre result child) above)
    (dense : Dense (plug first above).toTrie 2)
    (below : ∀ s, Dense (child s).toTrie (2 - above.length - 1))
    (run : compress above (.node pre result child) = .ok after) : Dense after.toTrie 2 := by
  induction above generalizing pre result child first with
  | nil =>
    cases result with
    | some actions =>
      cases run
      exact dense_stop dense below (by simp)
    | none =>
      rcases fold_correct fits.good with ⟨broke, -⟩ | ⟨folded, continued, -⟩ <;>
        simp only [compress, *] at run <;> cases run
      exact dense_stop dense below (by simp)
  | cons parent above ih =>
    cases result with
    | some actions =>
      cases run
      exact dense_stop dense below (by simp)
    | none =>
      cases above with
      | nil =>
        cases run
        exact dense_stop dense below (by simp)
      | cons grandparent above =>
        rcases fold_correct fits.good with ⟨broke, both⟩ | ⟨folded, continued, -, made, good, starts, -⟩
        · rw [compress, broke] at run
          cases run
          exact dense_stop dense below fun _ _ => both
        · obtain ⟨tail, bits⟩ := fits.2.1
          have side : pre.bit 0 = .ok parent.side := Key.bit_correct (by simp [bits])
          -- What takes the place of the level is a child of it, or nothing.
          have new : Dense folded.toTrie (2 - (grandparent :: above).length - 1) := by
            rcases made with rfl | ⟨s, _, _, _, _, only, rfl⟩
            · trivial
            · have kept := below s
              rw [only, dense_node] at kept
              rw [dense_node]
              simpa [Nat.sub_sub] using kept
          have old : Dense (parent.plug first).toTrie _ := dense_of_plug dense
          refine ih (fits.replace good starts).2.2.2.2 dense ?_ ?_
          · exact (Function.forall_update_iff parent.child fun _ level => Dense level.toTrie _).mpr
              ⟨new, (dense_frame.mp old).2.2⟩
          · simpa [compress, continued, side, Frame.plug, setChild] using run

end Compress

theorem descend_plug {key : Key} {found : Level A × List (Frame A)}
    (run : descend key above level = .ok found) : plug found.1 found.2 = plug level above := by
  induction level generalizing key above with
  | nil => cases run
  | node pre result child ih =>
    obtain ⟨equal, -, run⟩ := Outcome.bind_eq_ok.mp run
    cases equal with
    | true =>
      cases run
      rfl
    | false =>
      obtain ⟨b, -, run⟩ := Outcome.bind_eq_ok.mp run
      cases next : (child b).pre? <;> rw [next] at run <;>
        obtain ⟨deeper, -, run⟩ := Outcome.bind_eq_ok.mp run
      · cases run
      · cases deeper with
        | false =>
          obtain ⟨_, -, ⟨⟩⟩ := Outcome.bind_eq_ok.mp run
        | true =>
          rw [ih b run, plug, Frame.plug, setChild, Function.update_eq_self]

end Level

namespace Table

def Compressed (t : Table A) : Prop :=
  Dense t.root.toTrie 2 ∧ nodes t.root.toTrie ≤ 2 * held t.root.toTrie + 3

-- Whether an addition splits a child of the root that has no result and lacks a child.
def splitsBare (t : Table A) (word : List Bool) : Bool :=
  match t.root, word with
  | .node _ _ child, s :: _ =>
    match child s with
    | .nil => false
    | .node pre result below => !decide (pre.bits <+: word) && result.isNone &&
        !((below false).pre?.isSome && (below true).pre?.isSome)
  | _, _ => false

def Op.Keeps (t : Table A) : Op A → Prop
  | .add pre _ => t.splitsBare pre.val.bits = false
  | _ => True

variable {t after : Table A}

theorem compressed_iff : t.Compressed ↔ Dense t.root.toTrie 2 := by
  refine ⟨And.left, fun dense => ⟨dense, ?_⟩⟩
  have few := dense.nodes_lt
  omega

theorem empty_compressed : (empty : Table A).Compressed :=
  compressed_iff.mpr ⟨nofun, fun _ => trivial⟩

theorem add_compressed (valid : t.Valid) (compressed : t.Compressed) {pre : Key} (backed : pre.Valid)
    {actions : List A} (run : t.add pre actions = .ok after) :
    after.Compressed ↔ t.splitsBare pre.bits = false := by
  obtain ⟨root⟩ := t
  obtain ⟨top, present, nothing⟩ := valid.root
  have enough : pre.bits.length < pre.bitCount + 1 + top.bits.length := by
    rw [Key.bits_length backed]
    omega
  obtain ⟨_, added, -, -, inserted⟩ := Level.addLoop_correct actions present valid.good backed
    (by simp [nothing]) enough
  rw [add, added] at run
  cases run
  rw [compressed_iff, inserted]
  cases root with
  | nil => cases present
  | node here result child =>
    cases present
    have dense : Dense (.node [] result fun b => (child b).toTrie) 2 := compressed.1
    rw [Level.toTrie, nothing]
    cases word : pre.bits with
    | nil =>
      rw [Trie.insert_label]
      exact iff_of_true ⟨by simp, dense.2⟩ rfl
    | cons s rest =>
      have near : Dense (child s).toTrie 1 := dense.2 s
      have below := dense.insert_below actions s rest
      rw [List.nil_append] at below
      rw [below]
      cases next : child s with
      | nil => exact iff_of_true (dense_leaf _ _ _) (by simp [splitsBare, next])
      | node nextPre nextResult nextChild =>
        rw [next] at near
        rw [Level.toTrie, near.insert_child]
        cases first : nextChild false <;> cases second : nextChild true <;>
          cases nextResult <;> simp [splitsBare, next, first, second, Level.pre?, Level.toTrie]

theorem remove_compressed (valid : t.Valid) (compressed : t.Compressed) {pre : Key}
    (backed : pre.Valid) (run : t.remove pre = .ok after) : after.Compressed := by
  obtain ⟨top, present, nothing⟩ := valid.root
  obtain ⟨⟨here, above⟩, down, run⟩ := Outcome.bind_eq_ok.mp run
  have start : Level.Fits t.root [] := valid.good
  have dense : Dense (Level.plug here above).toTrie 2 := by
    rw [Level.descend_plug down]
    exact compressed.1
  rcases Level.descend_correct present start backed (by simp [nothing]) with
    ⟨⟨message, failed⟩, -⟩ | ⟨found, between, stop, -, there, fits, -⟩
  · cases failed.symm.trans down
  · rw [List.append_nil] at stop fits
    cases stop.symm.trans down
    obtain ⟨root, folded, ⟨⟩⟩ := Outcome.bind_eq_ok.mp run
    cases here with
    | nil => exact absurd rfl there
    | node here result child =>
      refine compressed_iff.mpr (Level.compress_dense (fits.replace (Level.clearResult_good fits.good)
        (Level.clearResult_startsWith _)) dense ?_ folded)
      exact (Level.dense_node.mp (Level.dense_of_plug dense)).2

theorem step_compressed (valid : t.Valid) (compressed : t.Compressed) {op : Op A}
    (run : t.step op = .ok after) : after.Compressed ↔ op.Keeps t := by
  cases op with
  | add pre actions => exact add_compressed valid compressed pre.property run
  | remove pre nonempty =>
    refine iff_of_true ?_ trivial
    rcases remove_correct valid pre.property nonempty with ⟨⟨_, failed⟩, -⟩ | ⟨next, removed, -⟩
    · rw [step, failed] at run
      cases run
      exact compressed
    · rw [step, removed] at run
      cases run
      exact remove_compressed valid compressed pre.property removed
  | clear =>
    cases run
    exact iff_of_true empty_compressed trivial

-- What is said of each operation and the tables before and after it.
def Each (Q : Table A → Op A → Table A → Prop) (t : Table A) : List (Op A) → Prop
  | [] => True
  | op :: ops => ∃ next, t.step op = .ok next ∧ Q t op next ∧ next.Each Q ops

theorem each_compressed_iff (valid : t.Valid) (compressed : t.Compressed) (ops : List (Op A)) :
    t.Each (fun _ _ next => next.Compressed) ops ↔ t.Each (fun t op _ => op.Keeps t) ops := by
  induction ops generalizing t with
  | nil => rfl
  | cons op ops ih =>
    refine exists_congr fun next => and_congr_right fun run => ?_
    obtain ⟨_, stepped, nextValid, -⟩ := step_correct valid op
    cases stepped.symm.trans run
    have kept : op.Keeps t ↔ next.Compressed := (step_compressed valid compressed run).symm
    simp only [kept]
    exact and_congr_right fun again => ih nextValid again

theorem stays_compressed_iff (ops : List (Op A)) :
    (empty : Table A).Each (fun _ _ next => next.Compressed) ops ↔
      (empty : Table A).Each (fun t op _ => op.Keeps t) ops :=
  each_compressed_iff empty_valid empty_compressed ops

-- The prefix 1010 is added and removed again, and then 11 is added: the level of 1010 is still there,
-- below the level of 1.
theorem not_compressed_after_split :
    ¬ (empty : Table Nat).Each (fun _ _ next => next.Compressed)
      [.add (shortKey 0xa0 4) [1], .remove (shortKey 0xa0 4) (by decide), .add (shortKey 0xc0 2) [2]] := by
  rw [each_compressed_iff empty_valid empty_compressed]
  rintro ⟨_, ⟨⟩, -, _, ⟨⟩, -, _, -, keeps, -⟩
  cases (keeps : splitsBare _ _ = false)

end Table

end Lemming.Prefix
