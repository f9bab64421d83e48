import Mathlib.Data.List.Infix
import Mathlib.Data.List.Nodup

set_option autoImplicit false

namespace Lemming.Shared

universe u v

section Words

variable {σ : Type u} [DecidableEq σ] {α : Type v}

def commonPrefix : List σ → List σ → List σ
  | a :: as, b :: bs => if a = b then a :: commonPrefix as bs else []
  | _, _ => []

@[simp] theorem commonPrefix_nil_left (key : List σ) : commonPrefix [] key = [] := by
  cases key <;> rfl

@[simp] theorem commonPrefix_nil_right (key : List σ) : commonPrefix key [] = [] := by
  cases key <;> rfl

variable (first second : List σ)

theorem commonPrefix_prefix_left : commonPrefix first second <+: first := by
  induction first generalizing second with
  | nil => simp
  | cons a as ih =>
    cases second with
    | nil => simp
    | cons b bs =>
      by_cases same : a = b
      · simpa [commonPrefix, same] using ih bs
      · simp [commonPrefix, same]

theorem commonPrefix_comm : commonPrefix first second = commonPrefix second first := by
  induction first generalizing second with
  | nil => simp
  | cons a as ih =>
    cases second with
    | nil => simp
    | cons b bs =>
      by_cases same : a = b
      · simp [commonPrefix, same, ih bs]
      · simp [commonPrefix, same, Ne.symm same]

theorem commonPrefix_prefix_right : commonPrefix first second <+: second :=
  commonPrefix_comm first second ▸ commonPrefix_prefix_left second first

theorem prefix_commonPrefix {common first second : List σ} (left : common <+: first)
    (right : common <+: second) : common <+: commonPrefix first second := by
  induction common generalizing first second with
  | nil => simp
  | cons a as ih =>
    obtain ⟨restLeft, rfl⟩ := left
    obtain ⟨restRight, rfl⟩ := right
    simpa [commonPrefix] using ih (List.prefix_append as restLeft) (List.prefix_append as restRight)

theorem commonPrefix_eq_left {first second : List σ} :
    commonPrefix first second = first ↔ first <+: second := by
  constructor
  · intro same
    exact same ▸ commonPrefix_prefix_right first second
  · intro included
    have maximal := prefix_commonPrefix (List.prefix_refl first) included
    exact (commonPrefix_prefix_left first second).eq_of_length_le maximal.length_le

theorem commonPrefix_append (front first second : List σ) :
    commonPrefix (front ++ first) (front ++ second) = front ++ commonPrefix first second := by
  induction front with
  | nil => rfl
  | cons a rest ih => simp [commonPrefix, ih]

theorem commonPrefix_split :
    ∃ restFirst restSecond, first = commonPrefix first second ++ restFirst ∧
      second = commonPrefix first second ++ restSecond ∧
      ∀ a as b bs, restFirst = a :: as → restSecond = b :: bs → a ≠ b := by
  obtain ⟨restFirst, splitFirst⟩ := commonPrefix_prefix_left first second
  obtain ⟨restSecond, splitSecond⟩ := commonPrefix_prefix_right first second
  refine ⟨restFirst, restSecond, splitFirst.symm, splitSecond.symm, ?_⟩
  rintro a as b bs rfl rfl rfl
  have longer : commonPrefix first second ++ [a] <+: commonPrefix first second :=
    prefix_commonPrefix ⟨as, by simpa using splitFirst⟩ ⟨bs, by simpa using splitSecond⟩
  have bound := longer.length_le
  simp only [List.length_append, List.length_singleton] at bound
  omega

def longestMatch (held : List σ → Option α) : List σ → Option α
  | [] => held []
  | s :: rest => (longestMatch (fun word => held (s :: word)) rest).or (held [])

variable {held : List σ → Option α}

omit [DecidableEq σ] in
theorem longestMatch_eq_none {key : List σ} :
    longestMatch held key = none ↔ ∀ word, word <+: key → held word = none := by
  induction key generalizing held with
  | nil => simp [longestMatch]
  | cons s rest ih =>
    simp only [longestMatch, Option.or_eq_none_iff, ih]
    constructor
    · rintro ⟨longer, empty⟩ word included
      rcases List.prefix_cons_iff.mp included with rfl | ⟨tail, rfl, below⟩
      · exact empty
      · exact longer tail below
    · intro absent
      exact ⟨fun word included => absent (s :: word) (by simpa using included),
        absent [] List.nil_prefix⟩

omit [DecidableEq σ] in
theorem longestMatch_eq_some {key : List σ} {value : α} :
    longestMatch held key = some value ↔ ∃ word, word <+: key ∧ held word = some value ∧
      ∀ other, other <+: key → held other ≠ none → other.length ≤ word.length := by
  induction key generalizing held with
  | nil => simp +contextual [longestMatch]
  | cons s rest ih =>
    simp only [longestMatch, Option.or_eq_some_iff, ih, longestMatch_eq_none]
    constructor
    · rintro (⟨word, included, present, longest⟩ | ⟨absent, present⟩)
      · refine ⟨s :: word, by simpa using included, present, ?_⟩
        intro other below held
        rcases List.prefix_cons_iff.mp below with rfl | ⟨tail, rfl, tailBelow⟩
        · simp
        · simpa using longest tail tailBelow held
      · refine ⟨[], List.nil_prefix, present, ?_⟩
        intro other below held
        rcases List.prefix_cons_iff.mp below with rfl | ⟨tail, rfl, tailBelow⟩
        · simp
        · exact absurd (absent tail tailBelow) held
    · rintro ⟨word, included, present, longest⟩
      rcases List.prefix_cons_iff.mp included with rfl | ⟨tail, rfl, tailBelow⟩
      · refine Or.inr ⟨fun other below => ?_, present⟩
        by_contra held
        simpa using longest (s :: other) (by simpa using below) held
      · refine Or.inl ⟨tail, tailBelow, present, fun other below held => ?_⟩
        simpa using longest (s :: other) (by simpa using below) held

omit [DecidableEq σ] in
theorem longestMatch_append (label key : List σ)
    (absent : ∀ word, word <+: label → word ≠ label → held word = none) :
    longestMatch held (label ++ key) = longestMatch (fun word => held (label ++ word)) key := by
  induction label generalizing held with
  | nil => rfl
  | cons s rest ih =>
    have empty : held [] = none := absent [] List.nil_prefix (by simp)
    simp only [List.cons_append, longestMatch, empty, Option.or_none]
    apply ih
    intro word below proper
    exact absent (s :: word) (by simpa using below) (by simpa using proper)

end Words

inductive Trie (σ : Type u) (α : Type v) where
  | nil
  | node (label : List σ) (value : Option α) (child : σ → Trie σ α)

namespace Trie

variable {σ : Type u} [DecidableEq σ] {α : Type v}

def StartsWith (s : σ) : Trie σ α → Prop
  | .nil => True
  | .node label _ _ => ∃ rest, label = s :: rest

def WellFormed : Trie σ α → Prop
  | .nil => True
  | .node _ _ child => ∀ s, (child s).StartsWith s ∧ (child s).WellFormed

def lookup : Trie σ α → List σ → Option α
  | .nil, _ => none
  | .node label value child, word =>
    match word.dropPrefix? label with
    | none => none
    | some [] => value
    | some (s :: rest) => (child s).lookup (s :: rest)

@[simp] theorem lookup_nil (word : List σ) : (nil : Trie σ α).lookup word = none := rfl

variable {label word rest : List σ} {value : Option α} {child : σ → Trie σ α} {s : σ}

theorem dropPrefix_append : (label ++ rest).dropPrefix? label = some rest :=
  List.dropPrefix?_eq_some_iff.mpr ⟨label, by simp⟩

theorem dropPrefix_self : label.dropPrefix? label = some [] := by
  simpa using @dropPrefix_append σ _ label []

theorem dropPrefix_outside (outside : ¬ label <+: word) : word.dropPrefix? label = none := by
  cases found : word.dropPrefix? label with
  | none => rfl
  | some rest =>
    obtain ⟨front, rfl, same⟩ := List.dropPrefix?_eq_some_iff.mp found
    exact absurd ⟨rest, by rw [eq_of_beq same]⟩ outside

@[simp] theorem lookup_label : (node label value child).lookup label = value := by
  simp [lookup, dropPrefix_self]

@[simp] theorem lookup_below :
    (node label value child).lookup (label ++ s :: rest) = (child s).lookup (s :: rest) := by
  simp [lookup, dropPrefix_append]

theorem lookup_outside (outside : ¬ label <+: word) : (node label value child).lookup word = none := by
  simp [lookup, dropPrefix_outside outside]

def hasNode : Trie σ α → List σ → Bool
  | .nil, _ => false
  | .node label _ child, word =>
    match word.dropPrefix? label with
    | none => false
    | some [] => true
    | some (s :: rest) => (child s).hasNode (s :: rest)

theorem hasNode_label : (node label value child).hasNode label = true := by
  simp [hasNode, dropPrefix_self]

theorem hasNode_below :
    (node label value child).hasNode (label ++ s :: rest) = (child s).hasNode (s :: rest) := by
  simp [hasNode, dropPrefix_append]

theorem hasNode_outside (outside : ¬ label <+: word) : (node label value child).hasNode word = false := by
  simp [hasNode, dropPrefix_outside outside]

omit [DecidableEq σ] in
theorem ne_of_outside (outside : ¬ label <+: word) (rest : List σ) : word ≠ label ++ rest :=
  fun same => outside (same ▸ List.prefix_append label rest)

theorem label_cases (label word : List σ) :
    word = label ∨ (∃ s rest, word = label ++ s :: rest) ∨ ¬ label <+: word := by
  by_cases included : label <+: word
  · obtain ⟨rest, rfl⟩ := included
    cases rest with
    | nil => exact Or.inl (List.append_nil label)
    | cons s rest => exact Or.inr (Or.inl ⟨s, rest, rfl⟩)
  · exact Or.inr (Or.inr included)

variable {trie : Trie σ α}

theorem lookup_startsWith (starts : trie.StartsWith s) (other : ∀ rest, word ≠ s :: rest) : trie.lookup word = none := by
  cases trie with
  | nil => rfl
  | node label value child =>
    obtain ⟨tail, rfl⟩ := starts
    apply lookup_outside
    rintro ⟨rest, rfl⟩
    exact other _ rfl

theorem lookup_node_congr {first second : σ → Trie σ α}
    (same : ∀ s word, (first s).lookup word = (second s).lookup word) (word : List σ) :
    (node label value first).lookup word = (node label value second).lookup word := by
  rcases label_cases label word with rfl | ⟨s, rest, rfl⟩ | outside
  · simp
  · simp [same]
  · simp [lookup_outside outside]

theorem longestMatch_node (wellFormed : (node label value child).WellFormed) (key : List σ) :
    longestMatch (node label value child).lookup (label ++ key) =
      match key with
      | [] => value
      | s :: rest => (longestMatch (child s).lookup (s :: rest)).or value := by
  rw [longestMatch_append label key]
  · cases key with
    | nil => simp [longestMatch]
    | cons s rest =>
      have empty : (child s).lookup [] = none :=
        lookup_startsWith (wellFormed s).1 (by simp)
      simp [longestMatch, empty]
  · intro word below proper
    apply lookup_outside
    intro included
    exact proper (below.eq_of_length_le included.length_le)

theorem lookup_erase_label (label : List σ) (value : Option α) (child : σ → Trie σ α)
    (word : List σ) :
    (node label none child).lookup word =
      if word = label then none else (node label value child).lookup word := by
  rcases label_cases label word with rfl | ⟨s, rest, rfl⟩ | outside
  · simp
  · simp
  · simp [lookup_outside outside]

theorem lookup_erase_below
    (erased : ∀ word, trie.lookup word = if word = s :: rest then none else (child s).lookup word)
    (word : List σ) :
    (node label value (Function.update child s trie)).lookup word =
      if word = label ++ s :: rest then none else (node label value child).lookup word := by
  rcases label_cases label word with rfl | ⟨r, more, rfl⟩ | outside
  · simp
  · by_cases same : r = s
    · subst same
      simp [erased]
    · simp [same]
  · simp [lookup_outside outside]

theorem lookup_bare (label word : List σ) :
    (node label none (fun _ => nil) : Trie σ α).lookup word = none := by
  rcases label_cases label word with rfl | ⟨s, rest, rfl⟩ | outside
  · simp
  · simp
  · exact lookup_outside outside

theorem lookup_merge (label tail : List σ) (s : σ) (value : Option α) (child : σ → Trie σ α)
    (word : List σ) :
    (node (label ++ s :: tail) value child).lookup word =
      (node label none
        (Function.update (fun _ => nil) s (node (s :: tail) value child))).lookup word := by
  rcases label_cases label word with rfl | ⟨r, rest, rfl⟩ | outside
  · rw [lookup_label, lookup_outside]
    rintro ⟨rest, same⟩
    simpa using congrArg List.length same
  · rw [lookup_below]
    by_cases same : r = s
    · subst same
      rw [Function.update_self]
      rcases label_cases (r :: tail) (r :: rest) with equal | ⟨q, more, equal⟩ | apart
      · rw [equal, lookup_label, lookup_label]
      · rw [equal, lookup_below, ← List.append_assoc, lookup_below]
      · rw [lookup_outside apart, lookup_outside]
        intro included
        exact apart (by simpa using included)
    · rw [Function.update_of_ne same, lookup_nil, lookup_outside]
      intro included
      have head : s :: tail <+: r :: rest := by simpa using included
      exact same (by simpa using (List.cons_prefix_cons.mp head).1.symm)
  · rw [lookup_outside outside, lookup_outside]
    intro included
    exact outside ((List.prefix_append label (s :: tail)).trans included)

def insert (value : α) : Trie σ α → List σ → Trie σ α
  | .nil, key => .node key (some value) fun _ => .nil
  | .node label held child, key =>
    let common := commonPrefix label key
    match label.drop common.length, key.drop common.length with
    | [], [] => .node label (some value) child
    | [], s :: rest =>
      .node label held (Function.update child s ((child s).insert value (s :: rest)))
    | s :: tail, [] =>
      .node common (some value) (Function.update (fun _ => .nil) s (.node (s :: tail) held child))
    | s :: tail, r :: more =>
      .node common none (Function.update
        (Function.update (fun _ => .nil) s (.node (s :: tail) held child))
        r (.node (r :: more) (some value) fun _ => .nil))

section Insert

variable (value : α) (held : Option α) (child : σ → Trie σ α)

theorem insert_label (label : List σ) :
    (node label held child).insert value label = .node label (some value) child := by
  have common : commonPrefix label label = label := commonPrefix_eq_left.mpr (List.prefix_refl label)
  simp [insert, common]

theorem insert_below (label : List σ) (s : σ) (rest : List σ) :
    (node label held child).insert value (label ++ s :: rest) =
      .node label held (Function.update child s ((child s).insert value (s :: rest))) := by
  have common : commonPrefix label (label ++ s :: rest) = label :=
    commonPrefix_eq_left.mpr (List.prefix_append label _)
  simp [insert, common]

theorem insert_inside (key : List σ) (s : σ) (tail : List σ) :
    (node (key ++ s :: tail) held child).insert value key =
      .node key (some value)
        (Function.update (fun _ => .nil) s (.node (s :: tail) held child)) := by
  have common : commonPrefix (key ++ s :: tail) key = key := by
    rw [commonPrefix_comm]
    exact commonPrefix_eq_left.mpr (List.prefix_append key _)
  simp [insert, common]

theorem insert_fork (front tail more : List σ) {s r : σ} (apart : s ≠ r) :
    (node (front ++ s :: tail) held child).insert value (front ++ r :: more) =
      .node front none (Function.update
        (Function.update (fun _ => .nil) s (.node (s :: tail) held child))
        r (.node (r :: more) (some value) fun _ => .nil)) := by
  have common : commonPrefix (front ++ s :: tail) (front ++ r :: more) = front := by
    simp [commonPrefix_append, commonPrefix, apart]
  simp [insert, common]

end Insert

theorem meet_cases (label key : List σ) :
    key = label ∨ (∃ s rest, key = label ++ s :: rest) ∨
      (∃ s tail, label = key ++ s :: tail) ∨
      ∃ front s tail r more, s ≠ r ∧ label = front ++ s :: tail ∧ key = front ++ r :: more := by
  obtain ⟨restLabel, restKey, splitLabel, splitKey, apart⟩ := commonPrefix_split label key
  generalize commonPrefix label key = front at splitLabel splitKey
  cases restLabel with
  | nil =>
    cases restKey with
    | nil => exact Or.inl (by rw [splitKey, splitLabel])
    | cons s rest => exact Or.inr (Or.inl ⟨s, rest, by rw [splitKey, splitLabel]; simp⟩)
  | cons s tail =>
    cases restKey with
    | nil => exact Or.inr (Or.inr (Or.inl ⟨s, tail, by rw [splitLabel, splitKey]; simp⟩))
    | cons r more =>
      exact Or.inr (Or.inr (Or.inr
        ⟨front, s, tail, r, more, apart s tail r more rfl rfl, splitLabel, splitKey⟩))

theorem lookup_leaf (value : α) (key word : List σ) :
    (node key (some value) fun _ => nil).lookup word = if word = key then some value else none := by
  rcases label_cases key word with rfl | ⟨s, rest, rfl⟩ | outside
  · simp
  · simp
  · rw [lookup_outside outside, if_neg]
    simpa using ne_of_outside outside []

theorem lookup_insert (value : α) (trie : Trie σ α) (key word : List σ) :
    (trie.insert value key).lookup word = if word = key then some value else trie.lookup word := by
  induction trie generalizing key word with
  | nil => exact lookup_leaf value key word
  | node label held child ih =>
    rcases meet_cases label key with rfl | ⟨s, rest, rfl⟩ | ⟨s, tail, rfl⟩ |
      ⟨front, s, tail, r, more, apart, rfl, rfl⟩
    · rw [insert_label]
      rcases label_cases key word with rfl | ⟨s, rest, rfl⟩ | outside
      · simp
      · simp
      · simpa [lookup_outside outside] using ne_of_outside outside []
    · rw [insert_below]
      rcases label_cases label word with rfl | ⟨r, more, rfl⟩ | outside
      · simp
      · by_cases same : r = s
        · subst same
          simp [ih]
        · simp [same]
      · simp [ne_of_outside outside, lookup_outside outside]
    · rw [insert_inside, lookup_merge]
      rcases label_cases key word with rfl | ⟨r, more, rfl⟩ | outside
      · simp
      · simp
      · simpa [lookup_outside outside] using ne_of_outside outside []
    · rw [insert_fork value held child front tail more apart, lookup_merge]
      rcases label_cases front word with rfl | ⟨q, most, rfl⟩ | outside
      · simp
      · rw [lookup_below, lookup_below]
        by_cases same : q = r
        · subst same
          rw [Function.update_self, Function.update_of_ne (Ne.symm apart), lookup_nil, lookup_leaf]
          simp
        · simp [same]
      · simp [ne_of_outside outside, lookup_outside outside]

theorem insert_startsWith (value : α) {s : σ} (rest : List σ)
    (starts : trie.StartsWith s) : (trie.insert value (s :: rest)).StartsWith s := by
  cases trie with
  | nil => exact ⟨rest, rfl⟩
  | node label held child =>
    obtain ⟨tail, rfl⟩ := starts
    rcases meet_cases tail rest with rfl | ⟨r, more, rfl⟩ | ⟨r, more, rfl⟩ |
      ⟨front, p, more, q, most, apart, rfl, rfl⟩
    · rw [insert_label]
      exact ⟨rest, rfl⟩
    · rw [← List.cons_append, insert_below]
      exact ⟨tail, rfl⟩
    · rw [← List.cons_append, insert_inside]
      exact ⟨rest, rfl⟩
    · rw [← List.cons_append, ← List.cons_append, insert_fork value _ _ (s :: front) more most apart]
      exact ⟨front, rfl⟩

section Listing

variable {letters : List σ} {trie : Trie σ α}

def listing (letters : List σ) : Trie σ α → List (List σ × α)
  | .nil => []
  | .node label value child =>
    (value.toList.map fun held => (label, held)) ++
      letters.flatMap fun s =>
        (listing letters (child s)).map fun entry => (label ++ entry.1, entry.2)

omit [DecidableEq σ] in
theorem mem_listing_node {label word : List σ} {value : Option α} {child : σ → Trie σ α} {held : α} :
    (word, held) ∈ (node label value child).listing letters ↔
      (word = label ∧ value = some held) ∨
        ∃ s ∈ letters, ∃ rest, (rest, held) ∈ (child s).listing letters ∧ word = label ++ rest := by
  simp only [listing, List.mem_append, List.mem_map, Option.mem_toList, Prod.mk.injEq,
    List.mem_flatMap, Prod.exists]
  constructor
  · rintro (⟨_, same, rfl, rfl⟩ | ⟨s, letter, rest, _, listed, rfl, rfl⟩)
    · exact Or.inl ⟨rfl, same⟩
    · exact Or.inr ⟨s, letter, rest, listed, rfl⟩
  · rintro (⟨rfl, same⟩ | ⟨s, letter, rest, listed, rfl⟩)
    · exact Or.inl ⟨held, same, rfl, rfl⟩
    · exact Or.inr ⟨s, letter, rest, held, listed, rfl, rfl⟩

omit [DecidableEq σ] in
theorem startsWith_of_listed {s : σ} (starts : trie.StartsWith s) {word : List σ} {held : α}
    (listed : (word, held) ∈ trie.listing letters) : ∃ rest, word = s :: rest := by
  cases trie with
  | nil => cases listed
  | node label value child =>
    obtain ⟨tail, rfl⟩ := starts
    rcases mem_listing_node.mp listed with ⟨rfl, -⟩ | ⟨-, -, rest, -, rfl⟩
    · exact ⟨tail, rfl⟩
    · exact ⟨tail ++ rest, rfl⟩

theorem mem_listing (wellFormed : trie.WellFormed) (all : ∀ s, s ∈ letters) (word : List σ) (held : α) :
    (word, held) ∈ trie.listing letters ↔ trie.lookup word = some held := by
  induction trie generalizing word with
  | nil => simp [listing]
  | node label value child ih =>
    rw [mem_listing_node]
    rcases label_cases label word with rfl | ⟨s, rest, rfl⟩ | outside
    · rw [lookup_label]
      constructor
      · rintro (⟨-, same⟩ | ⟨s, -, rest, listed, same⟩)
        · exact same
        · obtain ⟨tail, rfl⟩ := startsWith_of_listed (wellFormed s).1 listed
          simp at same
      · exact fun same => Or.inl ⟨rfl, same⟩
    · rw [lookup_below, ← ih s (wellFormed s).2]
      constructor
      · rintro (⟨same, -⟩ | ⟨r, -, other, listed, same⟩)
        · simp at same
        · obtain ⟨tail, rfl⟩ := startsWith_of_listed (wellFormed r).1 listed
          simp only [List.append_cancel_left_eq, List.cons.injEq] at same
          obtain ⟨rfl, rfl⟩ := same
          exact listed
      · exact fun listed => Or.inr ⟨s, all s, s :: rest, listed, rfl⟩
    · rw [lookup_outside outside]
      constructor
      · rintro (⟨rfl, -⟩ | ⟨s, -, rest, -, rfl⟩)
        · exact absurd (List.prefix_refl _) outside
        · exact absurd (List.prefix_append _ _) outside
      · intro same
        cases same

omit [DecidableEq σ] in
theorem nodup_listing (wellFormed : trie.WellFormed) (distinct : letters.Nodup) :
    ((trie.listing letters).map Prod.fst).Nodup := by
  induction trie with
  | nil => exact List.nodup_nil
  | node label value child ih =>
    have below : (letters.flatMap fun s =>
        ((child s).listing letters).map fun entry => label ++ entry.1).Nodup := by
      rw [List.nodup_flatMap]
      refine ⟨fun s _ => ?_, distinct.imp fun {s r} apart => ?_⟩
      · have words := (ih s (wellFormed s).2).map (f := fun rest => label ++ rest)
          fun _ _ => List.append_cancel_left
        rwa [List.map_map] at words
      · rintro word first second
        obtain ⟨⟨rest, held⟩, listed, rfl⟩ := List.mem_map.mp first
        obtain ⟨⟨other, held'⟩, listed', same⟩ := List.mem_map.mp second
        obtain ⟨tail, rfl⟩ := startsWith_of_listed (wellFormed s).1 listed
        obtain ⟨tail', rfl⟩ := startsWith_of_listed (wellFormed r).1 listed'
        simp only [List.append_cancel_left_eq, List.cons.injEq] at same
        exact apart same.1.symm
    rw [listing, List.map_append, List.map_flatMap, List.nodup_append]
    simp only [List.map_map, Function.comp_def]
    refine ⟨by cases value <;> simp, below, ?_⟩
    intro word own other deeper
    -- A word from below is longer than the label.
    obtain ⟨held, -, rfl⟩ := List.mem_map.mp own
    obtain ⟨s, -, under⟩ := List.mem_flatMap.mp deeper
    obtain ⟨⟨rest, held'⟩, listed, rfl⟩ := List.mem_map.mp under
    obtain ⟨tail, rfl⟩ := startsWith_of_listed (wellFormed s).1 listed
    simp

end Listing

end Trie

end Lemming.Shared
