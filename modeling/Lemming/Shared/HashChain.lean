import Lemming.Shared.Iteration
import Lemming.Shared.LinkedList
import Mathlib.Data.List.Find

set_option autoImplicit false

namespace Lemming.Shared

variable {ι β : Type}

structure Listed (links : Links ι) (head tail : Option ι) (xs : List ι) : Prop where
  linked : links.Linked xs
  head_eq : head = xs.head?
  tail_eq : tail = xs.getLast?

namespace Listed

variable {links : Links ι} {head tail : Option ι} {xs : List ι} {x : ι}

theorem nil (links : Links ι) : Listed links none none [] :=
  ⟨trivial, rfl, rfl⟩

theorem unlink [DecidableEq ι] {front back : List ι} (listed : Listed links head tail (front ++ x :: back))
    (distinct : (front ++ x :: back).Nodup) :
    Listed (links.unlink x) (if head = some x then links.next x else head)
      (if tail = some x then links.prev x else tail) (front ++ back) := by
  obtain ⟨-, backDistinct, apart⟩ := List.nodup_append.mp distinct
  have notFront : x ∉ front := fun member => apart x member x List.mem_cons_self rfl
  have notBack : x ∉ back := (List.nodup_cons.mp backDistinct).1
  obtain ⟨-, prev, next, -⟩ := (Links.segment_append _ _ _ _ _).mp listed.linked
  rw [Option.or_none] at prev next
  refine ⟨listed.linked.unlink distinct, ?_, ?_⟩
  · rw [listed.head_eq, next]
    cases front with
    | nil => simp
    | cons first rest =>
      have different : first ≠ x := fun same => notFront (same ▸ List.mem_cons_self)
      simp [different]
  · rw [listed.tail_eq, prev]
    rcases List.eq_nil_or_concat back with rfl | ⟨init, last, rfl⟩
    · simp
    · have different : last ≠ x := fun same => notBack (same ▸ by simp)
      have before : front ++ x :: init.concat last = (front ++ x :: init) ++ [last] := by simp
      have after : front ++ init.concat last = (front ++ init) ++ [last] := by simp
      rw [before, after, List.getLast?_concat, List.getLast?_concat]
      simp [different]

theorem pushBack [DecidableEq ι] (listed : Listed links head tail xs) (distinct : xs.Nodup) (fresh : x ∉ xs) :
    Listed (((links.setNext x none).setPrev x xs.getLast?).setLastNext xs (some x))
      (xs.head?.or (some x)) (some x) (xs ++ [x]) := by
  refine ⟨listed.linked.pushBack distinct fresh, ?_, ?_⟩
  · cases xs <;> rfl
  · rw [List.getLast?_concat]

theorem unique {tail' : Option ι} {ys : List ι} (first : Listed links head tail xs)
    (second : Listed links head tail' ys) : xs = ys := by
  have walked := Links.Segment.walk_correct first.linked (Nat.le_add_right xs.length ys.length)
  have walked' := Links.Segment.walk_correct second.linked (Nat.le_add_left ys.length xs.length)
  rw [← second.head_eq, first.head_eq] at walked'
  exact Outcome.ok.inj (walked.symm.trans walked')

end Listed

def bucketOf [DecidableEq β] (hashOf : ι → Option β) (xs : List ι) (h : β) : List ι :=
  xs.filter fun x => hashOf x == some h

def GoMap.bypass [DecidableEq β] (hash : GoMap β ι) (b : β) : Option ι → Option ι → GoMap β ι
  | some _, _ => hash
  | none, none => hash.erase b
  | none, some after => hash.insert b after

structure Chained [DecidableEq β] (hash : GoMap β ι) (links : Links ι) (hashOf : ι → Option β)
    (xs : List ι) : Prop where
  chain : ∀ h, links.Linked (bucketOf hashOf xs h)
  heads : ∀ h, hash.lookup h = (bucketOf hashOf xs h).head?

section Bucket

variable [DecidableEq β] {hashOf hashOf' : ι → Option β} {xs : List ι} {x : ι} {b h : β}

theorem mem_bucketOf : x ∈ bucketOf hashOf xs h ↔ x ∈ xs ∧ hashOf x = some h := by
  simp [bucketOf]

theorem bucketOf_congr (same : ∀ x ∈ xs, hashOf' x = hashOf x) :
    bucketOf hashOf' xs h = bucketOf hashOf xs h := by
  refine List.filter_congr fun x member => ?_
  rw [same x member]

theorem bucketOf_cons (isHash : hashOf x = some b) :
    bucketOf hashOf (x :: xs) h =
      if h = b then x :: bucketOf hashOf xs h else bucketOf hashOf xs h := by
  rw [bucketOf, List.filter_cons, isHash]
  by_cases same : h = b
  · simp [same, bucketOf]
  · simp [same, Ne.symm same, bucketOf]

theorem bucketOf_split {front back : List ι} (isHash : hashOf x = some b) :
    bucketOf hashOf (front ++ x :: back) h =
      if h = b then bucketOf hashOf front h ++ x :: bucketOf hashOf back h
      else bucketOf hashOf (front ++ back) h := by
  simp only [bucketOf, List.filter_append, List.filter_cons, isHash]
  by_cases same : h = b
  · simp [same]
  · simp [same, Ne.symm same]

end Bucket

namespace Chained

variable [DecidableEq β] {hash : GoMap β ι} {links : Links ι} {hashOf hashOf' : ι → Option β}
  {xs : List ι} {x : ι} {b : β}

theorem nil (links : Links ι) (hashOf : ι → Option β) : Chained ∅ links hashOf [] :=
  ⟨fun _ => trivial, fun _ => rfl⟩

section

variable (chained : Chained hash links hashOf xs)
include chained

theorem congr (same : ∀ x ∈ xs, hashOf' x = hashOf x) :
    Chained hash links hashOf' xs := by
  constructor
  all_goals
    intro h
    rw [bucketOf_congr same]
  · exact chained.chain h
  · exact chained.heads h

theorem search {test : ι → Bool}
    (sameHash : ∀ x ∈ xs, test x = true → hashOf x = some b) {fuel : Nat}
    (enough : xs.length ≤ fuel) :
    links.search test fuel (hash.lookup b) = .ok (xs.find? test) := by
  have short : (bucketOf hashOf xs b).length ≤ fuel := (List.length_filter_le _ _).trans enough
  rw [chained.heads, (chained.chain b).search_correct test short, bucketOf, List.find?_filter]
  congr 1
  refine List.find?_congr fun x member => ?_
  cases passes : test x with
  | false => simp
  | true => simp [sameHash x member passes]

theorem walk (lookup : hash.lookup b = some x) {fuel : Nat}
    (enough : xs.length ≤ fuel) : links.walk fuel (some x) = .ok (bucketOf hashOf xs b) := by
  have short : (bucketOf hashOf xs b).length ≤ fuel := (List.length_filter_le _ _).trans enough
  rw [← lookup, chained.heads]
  exact Links.Segment.walk_correct (chained.chain b) short

theorem push [DecidableEq ι] (distinct : xs.Nodup) (fresh : x ∉ xs)
    (isHash : hashOf x = some b) :
    Chained (hash.insert b x) (links.pushFront (hash.lookup b) x) hashOf (x :: xs) := by
  constructor
  · intro h
    rw [bucketOf_cons isHash, chained.heads]
    split
    · next same =>
      subst same
      exact (chained.chain _).pushFront (distinct.filter _) fun member => fresh (mem_bucketOf.mp member).1
    · next other =>
      refine (chained.chain h).congr fun y member => ?_
      have different : y ≠ x := fun same => fresh (same ▸ (mem_bucketOf.mp member).1)
      refine Links.pushFront_outside _ _ different fun elsewhere => other ?_
      exact Option.some_inj.mp
        ((mem_bucketOf.mp member).2.symm.trans (mem_bucketOf.mp elsewhere).2)
  · intro h
    rw [bucketOf_cons isHash]
    by_cases same : h = b
    · subst same
      simp
    · simp [same, AList.lookup_insert_ne same, chained.heads]

theorem unlink_self [DecidableEq ι] (distinct : xs.Nodup) (member : x ∈ xs)
    (isHash : hashOf x = some b) :
    (links.unlink x).next x = links.next x ∧ (links.unlink x).prev x = links.prev x := by
  have inBucket : x ∈ bucketOf hashOf xs b := mem_bucketOf.mpr ⟨member, isHash⟩
  have chain := chained.chain b
  have ownDistinct : (bucketOf hashOf xs b).Nodup := distinct.filter _
  obtain ⟨front, back, split⟩ := List.append_of_mem inBucket
  rw [split] at chain ownDistinct
  exact Links.unlink_self chain ownDistinct

end

theorem drop [DecidableEq ι] {front back : List ι} (chained : Chained hash links hashOf (front ++ x :: back))
    (distinct : (front ++ x :: back).Nodup) (isHash : hashOf x = some b) :
    Chained (GoMap.bypass hash b (links.prev x) (links.next x)) (links.unlink x) hashOf
      (front ++ back) := by
  have own : bucketOf hashOf (front ++ x :: back) b =
      bucketOf hashOf front b ++ x :: bucketOf hashOf back b := by
    rw [bucketOf_split isHash, if_pos rfl]
  have other {h : β} (different : h ≠ b) :
      bucketOf hashOf (front ++ x :: back) h = bucketOf hashOf (front ++ back) h := by
    rw [bucketOf_split isHash, if_neg different]
  have ownDistinct : (bucketOf hashOf front b ++ x :: bucketOf hashOf back b).Nodup :=
    own ▸ distinct.filter _
  have ownChain : links.Linked (bucketOf hashOf front b ++ x :: bucketOf hashOf back b) :=
    own ▸ chained.chain b
  have appended (h : β) :
      bucketOf hashOf (front ++ back) h = bucketOf hashOf front h ++ bucketOf hashOf back h :=
    List.filter_append ..
  obtain ⟨-, prev, next, -⟩ := (Links.segment_append _ _ _ _ _).mp ownChain
  rw [Option.or_none] at prev next
  constructor
  · intro h
    by_cases same : h = b
    · subst same
      rw [appended]
      exact ownChain.unlink ownDistinct
    · refine Links.Segment.congr (other same ▸ chained.chain h) fun node member => ?_
      refine Links.unlink_outside ownChain ownDistinct fun elsewhere => same ?_
      rw [← own] at elsewhere
      exact Option.some_inj.mp
        ((mem_bucketOf.mp member).2.symm.trans (mem_bucketOf.mp elsewhere).2)
  · intro h
    rw [prev, next]
    by_cases same : h = b
    · subst same
      rw [appended]
      cases frontChain : bucketOf hashOf front h with
      | nil => cases backChain : bucketOf hashOf back h <;> simp [GoMap.bypass]
      | cons first rest =>
        have last := List.getLast?_eq_some_getLast (List.cons_ne_nil first rest)
        simp [GoMap.bypass, last, chained.heads, own, frontChain]
    · have kept : hash.lookup h = (bucketOf hashOf (front ++ back) h).head? := by
        rw [chained.heads, other same]
      unfold GoMap.bypass
      split
      · exact kept
      · rw [AList.lookup_erase_ne same, kept]
      · rw [AList.lookup_insert_ne same, kept]

end Chained

end Lemming.Shared
