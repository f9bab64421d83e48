import Lemming.Acl.Trie
import Lemming.Shared.Segment

set_option autoImplicit false

namespace Lemming.Acl

open Shared

def isIdentifier : Text → Bool
  | [] => false
  | first :: rest => (first.isAlpha || first == '_') &&
    rest.all fun c => c.isAlphanum || c == '_' || c == '-' || c == '.'

def setPairs (kv : GoMap Text Text) : List (Σ _ : Text, Text) :=
  kv.entries.filter fun pair => pair.2 ≠ wildcard

def Plain (text : Text) : Prop := ∀ c ∈ text, c ≠ '[' ∧ c ≠ ']' ∧ c ≠ '=' ∧ c ≠ '\\'

theorem identifier_plain {text : Text} (identifier : isIdentifier text = true) : Plain text := by
  cases text with
  | nil => cases identifier
  | cons first rest =>
    have all : ∀ c ∈ first :: rest, (c.isAlphanum || c == '_' || c == '-' || c == '.') = true := by
      rw [isIdentifier, Bool.and_eq_true, List.all_eq_true] at identifier
      refine List.forall_mem_cons.mpr ⟨?_, identifier.2⟩
      rcases Bool.or_eq_true_iff.mp identifier.1 with alpha | under
      · simp [Char.isAlphanum, alpha]
      · simp [under]
    intro c member
    have part := all c member
    refine ⟨?_, ?_, ?_, ?_⟩ <;>
    · rintro rfl
      revert part
      decide

section Values

def encode (pairs : List (Text × Text)) : Text :=
  pairs.flatMap fun pair => '[' :: pair.1 ++ '=' :: escape pair.2 ++ [']']

-- What can come after the bracket that ends a value.
def Tail (text : Text) : Prop :=
  text = [] ∨ ∃ name rest, Plain name ∧ text = '[' :: name ++ '=' :: rest

theorem escape_cons (c : Char) (value : Text) :
    escape (c :: value) = (if c = '=' ∨ c = ']' then ['\\', c] else [c]) ++ escape value := by
  simp only [escape, replaceAll, List.flatMap_cons, List.flatMap_append]
  congr 1
  by_cases equals : c = '='
  · simp [equals]
  · by_cases bracket : c = ']' <;> simp [equals, bracket]

variable {value value' rest rest' : Text}

theorem escape_head {c : Char} {text : Text} (same : escape value ++ ']' :: rest = c :: text) :
    c ≠ '=' ∧ (c = ']' → value = [] ∧ rest = text) := by
  cases value with
  | nil =>
    cases same
    exact ⟨by decide, fun _ => ⟨rfl, rfl⟩⟩
  | cons first value =>
    rw [escape_cons] at same
    split at same
    · cases same
      exact ⟨by decide, fun isEnd => absurd isEnd (by decide)⟩
    · next plain =>
      push Not at plain
      cases same
      exact ⟨plain.1, fun isEnd => absurd isEnd plain.2⟩

theorem escape_apart {front back : Text} (plain : ∀ c ∈ front, c ≠ ']' ∧ c ≠ '\\') :
    escape value ++ ']' :: rest ≠ front ++ '=' :: back := by
  induction front generalizing value with
  | nil => exact fun same => (escape_head same).1 rfl
  | cons c front ih =>
    obtain ⟨first, others⟩ := List.forall_mem_cons.mp plain
    intro same
    cases value with
    | nil =>
      cases same
      exact first.1 rfl
    | cons d value =>
      rw [escape_cons] at same
      split at same
      · exact first.2 (List.cons.inj same).1.symm
      · exact ih others (List.cons.inj same).2

theorem escape_overlap {c : Char} (special : c = '=' ∨ c = ']') (tail : Tail rest') :
    c :: (escape value ++ ']' :: rest) ≠ escape value' ++ ']' :: rest' := by
  intro same
  have head := escape_head same.symm
  rcases special with rfl | rfl
  · exact head.1 rfl
  · obtain ⟨-, rfl⟩ := head.2 rfl
    rcases tail with none | ⟨name, more, plain, isTail⟩
    · simp at none
    · refine escape_apart ?_ isTail
      refine List.forall_mem_cons.mpr ⟨by decide, fun c member => ?_⟩
      exact ⟨(plain c member).2.1, (plain c member).2.2.2⟩

theorem value_end (tail : Tail rest) (tail' : Tail rest')
    (same : escape value ++ ']' :: rest = escape value' ++ ']' :: rest') :
    value = value' ∧ rest = rest' := by
  induction value generalizing value' with
  | nil =>
    obtain ⟨rfl, isRest⟩ := (escape_head same.symm).2 rfl
    exact ⟨rfl, isRest.symm⟩
  | cons c value ih =>
    cases value' with
    | nil =>
      cases ((escape_head same).2 rfl).1
    | cons d value' =>
      rw [escape_cons, escape_cons] at same
      split at same
      · next special =>
        split at same
        · obtain ⟨rfl, onward⟩ := List.cons.inj (List.cons.inj same).2
          obtain ⟨rfl, isRest⟩ := ih onward
          exact ⟨rfl, isRest⟩
        · exact absurd (List.cons.inj same).2 (escape_overlap special tail')
      · split at same
        · next special => exact absurd (List.cons.inj same).2.symm (escape_overlap special tail)
        · obtain ⟨rfl, onward⟩ := List.cons.inj same
          obtain ⟨rfl, isRest⟩ := ih onward
          exact ⟨rfl, isRest⟩

theorem encode_cons (k v : Text) (pairs : List (Text × Text)) :
    encode ((k, v) :: pairs) = '[' :: k ++ '=' :: (escape v ++ ']' :: encode pairs) := by
  simp [encode]

theorem encode_tail {pairs : List (Text × Text)} (named : ∀ pair ∈ pairs, Plain pair.1) :
    Tail (encode pairs) := by
  cases pairs with
  | nil => exact .inl rfl
  | cons pair pairs =>
    exact .inr ⟨pair.1, _, named pair List.mem_cons_self, encode_cons pair.1 pair.2 pairs⟩

theorem encode_injective {pairs pairs' : List (Text × Text)} (named : ∀ pair ∈ pairs, Plain pair.1)
    (named' : ∀ pair ∈ pairs', Plain pair.1) (same : encode pairs = encode pairs') :
    pairs = pairs' := by
  induction pairs generalizing pairs' with
  | nil =>
    cases pairs' with
    | nil => rfl
    | cons => simp [encode] at same
  | cons pair pairs ih =>
    cases pairs' with
    | nil => simp [encode] at same
    | cons pair' pairs' =>
      obtain ⟨plain, others⟩ := List.forall_mem_cons.mp named
      obtain ⟨plain', others'⟩ := List.forall_mem_cons.mp named'
      obtain ⟨k, v⟩ := pair
      obtain ⟨k', v'⟩ := pair'
      rw [encode_cons, encode_cons] at same
      obtain ⟨rfl, onward⟩ := front_unique (fun member => (plain _ member).2.2.1 rfl)
        (fun member => (plain' _ member).2.2.1 rfl) (by simp) (by simp) (List.cons.inj same).2
      obtain ⟨rfl, rest⟩ := value_end (encode_tail others) (encode_tail others') (List.cons.inj onward).2
      rw [ih others others' rest]

end Values

section Elements

variable {name name' : Text} {kv kv' : GoMap Text Text}

def listed (kv : GoMap Text Text) : List (Text × Text) :=
  (((setPairs kv).map Sigma.fst).insertionSort (· ≤ ·)).map fun k => (k, (kv.lookup k).getD [])

theorem setKeys_eq (name : Text) {entries : List (Σ _ : Text, Text)}
    (named : ∀ entry ∈ entries, entry.1 ≠ []) :
    setKeys name entries = .ok ((entries.filter fun pair => pair.2 ≠ wildcard).map Sigma.fst) := by
  induction entries with
  | nil => rfl
  | cons entry rest ih =>
    obtain ⟨own, others⟩ := List.forall_mem_cons.mp named
    rw [setKeys, if_neg own, ih others]
    by_cases isWild : entry.2 = wildcard <;> simp [isWild, bind, Except.bind, pure, Except.pure]

theorem elemToString_eq (named : name ≠ []) (keyed : ∀ entry ∈ kv.entries, entry.1 ≠ []) :
    elemToString name kv = .ok (name ++ encode (listed kv), (setPairs kv).length) := by
  have written (keys : List Text) (name : Text) : keys.foldl
      (fun name k => name ++ ['['] ++ k ++ ['='] ++ escape ((kv.lookup k).getD []) ++ [']']) name =
        name ++ encode (keys.map fun k => (k, (kv.lookup k).getD [])) := by
    induction keys generalizing name with
    | nil => simp [encode]
    | cons k keys ih => rw [List.foldl_cons, ih, List.map_cons, encode_cons]; simp
  rw [elemToString, if_neg named]
  split
  · next empty =>
    rw [listed, setPairs, List.length_eq_zero_iff.mp empty]
    simp [encode]
  · simp only [setKeys_eq name keyed, bind, Except.bind, pure, Except.pure, written,
      List.length_insertionSort, List.length_map]
    rfl

theorem mem_listed {k v : Text} : (k, v) ∈ listed kv ↔ ⟨k, v⟩ ∈ setPairs kv := by
  have found {k v : Text} (member : ⟨k, v⟩ ∈ setPairs kv) : kv.lookup k = some v :=
    AList.mem_lookup_iff.mpr (List.mem_of_mem_filter member)
  simp only [listed, List.mem_map, List.mem_insertionSort]
  constructor
  · rintro ⟨_, ⟨⟨k, v⟩, member, rfl⟩, isPair⟩
    rw [found member] at isPair
    cases isPair
    exact member
  · intro member
    exact ⟨k, ⟨⟨k, v⟩, member, rfl⟩, by rw [found member]; rfl⟩

theorem listed_congr (same : ∀ pair, pair ∈ setPairs kv ↔ pair ∈ setPairs kv') :
    listed kv = listed kv' := by
  have perm : (setPairs kv).Perm (setPairs kv') :=
    (List.perm_ext_iff_of_nodup (kv.nodupKeys.nodup.filter _) (kv'.nodupKeys.nodup.filter _)).mpr same
  have keys : ((setPairs kv).map Sigma.fst).insertionSort (· ≤ ·) =
      ((setPairs kv').map Sigma.fst).insertionSort (· ≤ ·) := by
    refine List.Perm.eq_of_sortedLE (List.sortedLE_insertionSort) (List.sortedLE_insertionSort) ?_
    exact ((List.perm_insertionSort _ _).trans (perm.map _)).trans (List.perm_insertionSort _ _).symm
  rw [listed, listed, keys]
  refine List.map_congr_left fun k member => ?_
  obtain ⟨⟨k, v⟩, isPair, rfl⟩ := List.mem_map.mp ((List.mem_insertionSort _).mp member)
  have first : kv.lookup k = some v :=
    AList.mem_lookup_iff.mpr (List.mem_of_mem_filter ((same _).mpr isPair))
  have second : kv'.lookup k = some v := AList.mem_lookup_iff.mpr (List.mem_of_mem_filter isPair)
  rw [first, second]

theorem listed_plain (keyed : ∀ entry ∈ kv.entries, isIdentifier entry.1 = true) :
    ∀ pair ∈ listed kv, Plain pair.1 :=
  fun _ member => identifier_plain (keyed _ (List.mem_of_mem_filter (mem_listed.mp member)))

end Elements

theorem elemToString_injective (a b : PathElem) (named : isIdentifier a.name = true)
    (named' : isIdentifier b.name = true) (keyed : ∀ entry ∈ a.key.entries, isIdentifier entry.1 = true)
    (keyed' : ∀ entry ∈ b.key.entries, isIdentifier entry.1 = true) :
    ∃ text text', elemToString a.name a.key = .ok (text, (setPairs a.key).length) ∧
      elemToString b.name b.key = .ok (text', (setPairs b.key).length) ∧
      (text = text' ↔ a.name = b.name ∧ ∀ pair, pair ∈ setPairs a.key ↔ pair ∈ setPairs b.key) := by
  have nonempty {text : Text} (identifier : isIdentifier text = true) : text ≠ [] := by
    rintro rfl
    cases identifier
  refine ⟨_, _, elemToString_eq (nonempty named) fun entry member => nonempty (keyed entry member),
    elemToString_eq (nonempty named') fun entry member => nonempty (keyed' entry member), ?_⟩
  constructor
  · intro same
    have starts {pairs : List (Text × Text)} : ∀ c ∈ (encode pairs).head?, c = '[' := by
      cases pairs <;> simp [encode]
    obtain ⟨isName, texts⟩ := front_unique (fun member => (identifier_plain named _ member).1 rfl)
      (fun member => (identifier_plain named' _ member).1 rfl) starts starts same
    have pairs := encode_injective (listed_plain keyed) (listed_plain keyed') texts
    refine ⟨isName, fun pair => ?_⟩
    rw [← mem_listed, pairs, mem_listed]
  · rintro ⟨isName, pairs⟩
    rw [isName, listed_congr pairs]

theorem backslash_elements :
    ∃ text text', elemToString ['p'] (AList.singleton ['k'] ['\\']) = .ok (text, 1) ∧
      elemToString ['p'] (AList.singleton ['k'] [']', '[', 'k', '=']) = .ok (text', 1) ∧
      (text = text' ↔ ['p'] = ['p'] ∧ ∀ pair, pair ∈ setPairs (AList.singleton ['k'] ['\\']) ↔
        pair ∈ setPairs (AList.singleton ['k'] [']', '[', 'k', '='])) :=
  elemToString_injective ⟨['p'], AList.singleton ['k'] ['\\']⟩
    ⟨['p'], AList.singleton ['k'] [']', '[', 'k', '=']⟩ (by decide) (by decide) (by decide) (by decide)

end Lemming.Acl
