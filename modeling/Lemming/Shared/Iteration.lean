import Mathlib.Data.Finmap

set_option autoImplicit false

namespace Lemming.Shared

abbrev GoMap (κ ν : Type) := AList fun _ : κ => ν

namespace GoMap

variable {κ ν : Type} [DecidableEq κ]

def agrees (same : ν → ν → Bool) (s t : GoMap κ ν) : Bool :=
  s.entries.all fun entry =>
    match t.lookup entry.1 with
    | none => false
    | some value => same entry.2 value

theorem agrees_iff {same : ν → ν → Bool} (lawful : ∀ a b, same a b = true ↔ a = b)
    (s t : GoMap κ ν) :
    agrees same s t = true ↔ ∀ entry ∈ s.entries, t.lookup entry.1 = some entry.2 := by
  rw [agrees, List.all_eq_true]
  refine forall₂_congr fun entry _ => ?_
  cases found : t.lookup entry.1 with
  | none => simp
  | some value => rw [Option.some_inj, lawful, eq_comm]

theorem same_iff (s t : GoMap κ ν) :
    (s.entries.length = t.entries.length ∧ ∀ entry ∈ s.entries, t.lookup entry.1 = some entry.2) ↔
      s.toFinmap = t.toFinmap := by
  rw [AList.toFinmap_eq]
  constructor
  · rintro ⟨size, found⟩
    have included : s.entries ⊆ t.entries := fun entry member =>
      List.mem_dlookup_iff t.nodupKeys |>.mp (found entry member)
    have nodup : s.entries.Nodup := s.nodupKeys.nodup
    exact (List.subperm_of_subset nodup included).perm_of_length_le (Nat.le_of_eq size.symm)
  · intro same
    refine ⟨same.length_eq, fun entry member => ?_⟩
    exact (List.mem_dlookup_iff t.nodupKeys).mpr (same.subset member)

theorem perm_of_lookup {map : GoMap κ ν} {key : κ} {value : ν} (found : map.lookup key = some value) :
    map.entries.Perm (⟨key, value⟩ :: (map.erase key).entries) := by
  have member : (⟨key, value⟩ : Sigma fun _ : κ => ν) ∈ map.entries :=
    List.of_mem_dlookup found
  obtain ⟨other, before, after, _, split, erased⟩ :=
    List.exists_of_kerase (List.mem_keys_of_mem member)
  have same : other = value := by
    have there : (⟨key, other⟩ : Sigma fun _ : κ => ν) ∈ map.entries := by simp [split]
    exact Option.some.inj (((List.mem_dlookup_iff map.nodupKeys).mpr there).symm.trans found)
  subst same
  have rest : (map.erase key).entries = before ++ after := erased
  rw [rest, split]
  exact List.perm_middle

theorem lookup_insert_iff {map : GoMap κ ν} {key : κ} {value : ν}
    (same : ∀ old, map.lookup key = some old → old = value) (other : κ) (held : ν) :
    (map.insert key value).lookup other = some held ↔
      other = key ∧ held = value ∨ map.lookup other = some held := by
  by_cases isKey : other = key
  · subst isKey
    rw [AList.lookup_insert, Option.some_inj, eq_comm]
    exact ⟨fun isValue => .inl ⟨rfl, isValue⟩, fun found => found.elim And.right (same held)⟩
  · rw [AList.lookup_insert_ne isKey]
    exact ⟨.inr, fun found => found.resolve_left fun both => isKey both.1⟩

end GoMap

structure Shuffle (α : Type) where
  arrange : List α → List α
  perm : ∀ xs, (arrange xs).Perm xs

namespace Shuffle

variable {α : Type}

def id : Shuffle α where
  arrange := fun xs => xs
  perm := fun _ => List.Perm.refl _

@[simp] theorem mem_arrange (order : Shuffle α) (xs : List α) (x : α) :
    x ∈ order.arrange xs ↔ x ∈ xs :=
  (order.perm xs).mem_iff

end Shuffle

end Lemming.Shared
