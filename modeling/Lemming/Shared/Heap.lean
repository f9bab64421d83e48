import Lemming.Shared.Octets

set_option autoImplicit false

namespace Lemming.Shared

variable {α : Type}

abbrev Heap (α : Type) := List (List α)

structure Slice where
  array : Nat
  off : Nat
  len : Nat
deriving DecidableEq, Repr

namespace Heap

def array (heap : Heap α) (a : Nat) : List α := heap.getD a []

def Grown (heap heap' : Heap α) : Prop :=
  heap.length ≤ heap'.length ∧ ∀ a < heap.length, (heap'.array a).length = (heap.array a).length

end Heap

namespace Slice

def nil : Slice := ⟨0, 0, 0⟩

variable (heap : Heap α) (s : Slice)

def get : List α := slice (heap.array s.array) s.off s.len

def sub (off len : Nat) : Slice := ⟨s.array, s.off + off, len⟩

def set (new : List α) : Heap α :=
  heap.modify s.array fun cells => overwrite cells s.off new

def alloc (cells : List α) : Heap α × Slice :=
  (heap ++ [cells], ⟨heap.length, 0, cells.length⟩)

def append (new : List α) : Heap α × Slice :=
  if s.off + s.len + new.length ≤ (heap.array s.array).length then
    ((s.sub s.len new.length).set heap new, { s with len := s.len + new.length })
  else alloc heap (s.get heap ++ new)

-- The cells of its array that `append` overwrites.
def inPlace (new : List α) : List Slice :=
  if s.off + s.len + new.length ≤ (heap.array s.array).length then [s.sub s.len new.length] else []

def reslice (len : Nat) : Option Slice :=
  if s.off + len ≤ (heap.array s.array).length then some { s with len } else none

def Inside : Prop :=
  s.array < heap.length ∧ s.off + s.len ≤ (heap.array s.array).length

def Covers (s t : Slice) : Prop :=
  t.array = s.array ∧ s.off ≤ t.off ∧ t.off + t.len ≤ s.off + s.len

def Apart (s t : Slice) : Prop :=
  s.array ≠ t.array ∨ s.off + s.len ≤ t.off ∨ t.off + t.len ≤ s.off

end Slice

section Laws

variable {heap heap' heap'' : Heap α} {s t : Slice} {new : List α}

theorem Heap.Grown.refl (heap : Heap α) : heap.Grown heap :=
  ⟨Nat.le_refl _, fun _ _ => rfl⟩

theorem Heap.Grown.trans (first : heap.Grown heap') (second : heap'.Grown heap'') :
    heap.Grown heap'' := by
  refine ⟨first.1.trans second.1, fun a below => ?_⟩
  rw [second.2 a (below.trans_le first.1), first.2 a below]

namespace Slice

theorem Apart.symm (apart : s.Apart t) : t.Apart s := by
  unfold Apart at *
  omega

theorem Covers.refl (s : Slice) : s.Covers s :=
  ⟨rfl, Nat.le_refl _, Nat.le_refl _⟩

theorem Covers.inside (covers : s.Covers t) (inside : s.Inside heap) : t.Inside heap := by
  obtain ⟨same, -, ends⟩ := covers
  refine ⟨same ▸ inside.1, ?_⟩
  rw [same]
  exact ends.trans inside.2

theorem Covers.apart {r : Slice} (covers : r.Covers s) (apart : r.Apart t) : s.Apart t := by
  unfold Covers at covers
  unfold Apart at *
  omega

theorem covers_sub {off n : Nat} (inside : off + n ≤ s.len) : s.Covers (s.sub off n) := by
  refine ⟨rfl, Nat.le_add_right _ _, ?_⟩
  simp only [sub]
  omega

theorem Inside.grown (inside : s.Inside heap) (grown : heap.Grown heap') : s.Inside heap' := by
  refine ⟨inside.1.trans_le grown.1, ?_⟩
  rw [grown.2 _ inside.1]
  exact inside.2

theorem get_length (inside : s.Inside heap) : (s.get heap).length = s.len :=
  slice_length inside.2

theorem get_cell {k : Nat} (inside : s.Inside heap) (below : k < s.len) :
    ∃ cell, (s.get heap)[k]? = some cell :=
  ⟨_, List.getElem?_eq_getElem (by rwa [get_length inside])⟩

theorem array_set (live : s.array < heap.length) (a : Nat) :
    (s.set heap new).array a =
      if a = s.array then overwrite (heap.array s.array) s.off new else heap.array a := by
  simp only [Heap.array, set, List.getD_eq_getElem?_getD, List.getElem?_modify]
  split
  · rename_i same
    subst same
    rw [if_pos rfl, List.getElem?_eq_getElem live]
    rfl
  · rename_i other
    rw [if_neg (Ne.symm other)]
    cases heap[a]? <;> rfl

theorem set_grown (inside : s.Inside heap) (same : new.length = s.len) :
    heap.Grown (s.set heap new) := by
  refine ⟨by simp [set], fun a _ => ?_⟩
  rw [array_set inside.1]
  split
  · rename_i eq
    rw [eq, overwrite_length (by rw [same]; exact inside.2)]
  · rfl

theorem get_set_self (inside : s.Inside heap) (same : new.length = s.len) :
    s.get (s.set heap new) = new := by
  rw [get, array_set inside.1, if_pos rfl, ← same]
  exact slice_overwrite_self (by rw [same]; exact inside.2)

theorem get_set_apart (inside : s.Inside heap) (same : new.length = s.len) (apart : s.Apart t) :
    t.get (s.set heap new) = t.get heap := by
  rw [get, array_set inside.1, get]
  split
  · rename_i eq
    rw [slice_overwrite_apart (by rw [same]; exact inside.2), eq]
    unfold Apart at apart
    omega
  · rfl

theorem set_get (inside : s.Inside heap) : s.set heap (s.get heap) = heap := by
  have live : s.array < heap.length := inside.1
  have cells : heap.array s.array = heap[s.array] := by
    rw [Heap.array, List.getD_eq_getElem?_getD, List.getElem?_eq_getElem live, Option.getD_some]
  refine List.ext_getElem? fun a => ?_
  rw [set, List.getElem?_modify]
  split
  · rename_i eq
    subst eq
    have same : overwrite heap[s.array] s.off (s.get heap) = heap[s.array] := by
      rw [get, ← cells]
      exact overwrite_slice inside.2
    rw [List.getElem?_eq_getElem live]
    exact congrArg some same
  · cases heap[a]? <;> rfl

theorem alloc_grown (cells : List α) : heap.Grown (alloc heap cells).1 := by
  refine ⟨by simp [alloc], fun a below => ?_⟩
  simp [alloc, Heap.array, List.getD_eq_getElem?_getD, List.getElem?_append_left below]

theorem get_alloc_old (cells : List α) (live : t.array < heap.length) :
    t.get (alloc heap cells).1 = t.get heap := by
  simp [alloc, get, Heap.array, List.getD_eq_getElem?_getD, List.getElem?_append_left live]

theorem get_alloc_new (cells : List α) : (alloc heap cells).2.get (alloc heap cells).1 = cells := by
  simp [alloc, get, Heap.array, slice, List.getD_eq_getElem?_getD]

theorem alloc_inside (heap : Heap α) (cells : List α) : (alloc heap cells).2.Inside (alloc heap cells).1 := by
  simp [alloc, Inside, Heap.array, List.getD_eq_getElem?_getD]

theorem get_sub {off n : Nat} (inside : off + n ≤ s.len) :
    (s.sub off n).get heap = slice (s.get heap) off n :=
  (slice_slice inside).symm

theorem get_set_sub {off n : Nat} (inside : s.Inside heap) (fits : off + n ≤ s.len)
    (same : new.length = n) :
    s.get ((s.sub off n).set heap new) = overwrite (s.get heap) off new := by
  have live : (s.sub off n).array < heap.length := inside.1
  have sameArray : s.array = (s.sub off n).array := rfl
  rw [get, array_set live, if_pos sameArray, get]
  exact slice_overwrite_inside inside.2 (by omega)

theorem append_behind (inside : t.Inside heap) (same : t.array = s.array)
    (behind : t.off = s.off + s.len) :
    s.append heap (t.get heap) = (heap, { s with len := s.len + t.len }) := by
  have length := get_length inside
  have sub : s.sub s.len (t.get heap).length = t := by
    cases t
    simp_all [Slice.sub]
  have fits := inside.2
  rw [same, behind] at fits
  rw [append, if_pos (by omega), sub, set_get inside, length]

theorem append_nothing (inside : s.Inside heap) : s.append heap [] = (heap, s) := by
  have empty : (s.sub s.len 0).Inside heap := ⟨inside.1, inside.2⟩
  have none : (s.sub s.len 0).get heap = [] := List.eq_nil_of_length_eq_zero (get_length empty)
  have behind : s.append heap ((s.sub s.len 0).get heap) = (heap, s) :=
    append_behind empty rfl rfl
  rwa [none] at behind

end Slice

namespace Heap

-- Nothing was changed but what the slices `written` cover; the arrays kept their sizes.
def Only (written : List Slice) (heap heap' : Heap α) : Prop :=
  heap.Grown heap' ∧
    ∀ t : Slice, t.Inside heap → (∀ s ∈ written, s.Apart t) → t.get heap' = t.get heap

theorem Only.refl (written : List Slice) (heap : Heap α) : heap.Only written heap :=
  ⟨.refl heap, fun _ _ _ => rfl⟩

variable {written : List Slice}

theorem Only.trans (first : heap.Only written heap')
    (second : heap'.Only written heap'') : heap.Only written heap'' := by
  refine ⟨first.1.trans second.1, fun t inside apart => ?_⟩
  rw [second.2 t (inside.grown first.1) apart, first.2 t inside apart]

theorem Only.mono {more : List Slice} (only : heap.Only written heap')
    (sub : written ⊆ more) : heap.Only more heap' :=
  ⟨only.1, fun t inside apart => only.2 t inside fun s mem => apart s (sub mem)⟩

theorem Only.covered {more : List Slice} (only : heap.Only written heap')
    (covered : ∀ s ∈ written, ∃ r ∈ more, r.Covers s) : heap.Only more heap' := by
  refine ⟨only.1, fun t inside apart => only.2 t inside fun s mem => ?_⟩
  obtain ⟨r, isMore, covers⟩ := covered s mem
  exact covers.apart (apart r isMore)

theorem Only.set {r : Slice} (mem : r ∈ written) (covers : r.Covers s) (inside : s.Inside heap)
    (same : new.length = s.len) : heap.Only written (s.set heap new) :=
  ⟨Slice.set_grown inside same,
    fun _ _ apart => Slice.get_set_apart inside same (covers.apart (apart r mem))⟩

theorem Only.alloc (heap : Heap α) (written : List Slice) (cells : List α) :
    heap.Only written (Slice.alloc heap cells).1 :=
  ⟨Slice.alloc_grown cells, fun _ inside _ => Slice.get_alloc_old cells inside.1⟩

theorem Only.set_new (only : heap.Only written heap') (newer : heap.length ≤ s.array)
    (inside : s.Inside heap') (same : new.length = s.len) :
    heap.Only written (s.set heap' new) := by
  refine ⟨only.1.trans (Slice.set_grown inside same), fun t live apart => ?_⟩
  rw [Slice.get_set_apart inside same (Or.inl (by have := live.1; omega))]
  exact only.2 t live apart

theorem Only.trans_new {newer : List Slice} (first : heap.Only written heap')
    (second : heap'.Only newer heap'') (new : ∀ s ∈ newer, heap.length ≤ s.array) :
    heap.Only written heap'' := by
  refine ⟨first.1.trans second.1, fun t inside apart => ?_⟩
  rw [second.2 t (inside.grown first.1) fun s mem => Or.inl (by have := new s mem; have := inside.1; omega)]
  exact first.2 t inside apart

theorem Only.append_inPlace (live : s.array < heap.length) :
    heap.Only (s.inPlace heap new) (s.append heap new).1 := by
  unfold Slice.append Slice.inPlace
  split
  · exact .set (List.mem_singleton_self _) (Slice.Covers.refl _) ⟨live, ‹_›⟩ rfl
  · exact .alloc _ _ _

theorem Only.append {r : Slice} (mem : r ∈ written) (covers : r.Covers (s.sub s.len new.length))
    (live : s.array < heap.length) :
    heap.Only written (s.append heap new).1 := by
  apply (append_inPlace live).covered
  intro t isWritten
  unfold Slice.inPlace at isWritten
  split at isWritten
  · exact ⟨r, mem, List.mem_singleton.mp isWritten ▸ covers⟩
  · cases isWritten

end Heap

namespace Slice

theorem append_inside (inside : s.Inside heap) :
    (s.append heap new).2.Inside (s.append heap new).1 := by
  unfold append
  split
  · rename_i room
    have grown : heap.Grown ((s.sub s.len new.length).set heap new) :=
      set_grown ⟨inside.1, room⟩ rfl
    refine ⟨inside.1.trans_le grown.1, ?_⟩
    rw [grown.2 _ inside.1, ← Nat.add_assoc]
    exact room
  · exact alloc_inside _ _

theorem append_len (inside : s.Inside heap) :
    (s.append heap new).2.len = s.len + new.length := by
  unfold append
  split
  · rfl
  · simp [alloc, get_length inside]

theorem get_append (inside : s.Inside heap) :
    (s.append heap new).2.get (s.append heap new).1 = s.get heap ++ new := by
  unfold append
  split
  · rename_i room
    have written : (s.sub s.len new.length).Inside heap := ⟨inside.1, room⟩
    have before : s.get ((s.sub s.len new.length).set heap new) = s.get heap :=
      get_set_apart written rfl (Or.inr (Or.inr (Nat.le_refl _)))
    have behind : (s.sub s.len new.length).get ((s.sub s.len new.length).set heap new) = new :=
      get_set_self written rfl
    have split : ∀ h : Heap α, (⟨s.array, s.off, s.len + new.length⟩ : Slice).get h =
        s.get h ++ (s.sub s.len new.length).get h := by
      intro h
      simp only [get, sub, slice, List.take_add, List.drop_drop]
    rw [split, before, behind]
  · exact get_alloc_new _

theorem append_cases (s : Slice) (heap : Heap α) (new : List α) :
    s.append heap new = ((s.sub s.len new.length).set heap new, { s with len := s.len + new.length }) ∨
      s.append heap new = alloc heap (s.get heap ++ new) := by
  unfold append
  split
  · exact Or.inl rfl
  · exact Or.inr rfl

theorem append_alloc (cells new : List α) (written : List Slice) :
    heap.Only written ((alloc heap cells).2.append (alloc heap cells).1 new).1 := by
  cases new with
  | nil =>
    rw [append_nothing (alloc_inside heap cells)]
    exact .alloc _ _ _
  | cons cell more =>
    have full : ¬ (alloc heap cells).2.off + (alloc heap cells).2.len + (cell :: more).length ≤
        ((alloc heap cells).1.array (alloc heap cells).2.array).length := by
      simp [alloc, Heap.array, List.getD_eq_getElem?_getD]
    rw [append, if_neg full]
    exact Heap.Only.trans (.alloc _ _ _) (.alloc _ _ _)

end Slice

end Laws

end Lemming.Shared
