import Lemming.Shared.Outcome
import Mathlib.Data.List.Basic

set_option autoImplicit false

namespace Lemming.Shared

variable {ι : Type}

structure Links (ι : Type) where
  next : ι → Option ι
  prev : ι → Option ι

namespace Links

def none : Links ι where
  next := fun _ => Option.none
  prev := fun _ => Option.none

def flip (l : Links ι) : Links ι where
  next := l.prev
  prev := l.next

def setNext [DecidableEq ι] (l : Links ι) (x : ι) (target : Option ι) : Links ι :=
  { l with next := Function.update l.next x target }

def setPrev [DecidableEq ι] (l : Links ι) (x : ι) (target : Option ι) : Links ι :=
  { l with prev := Function.update l.prev x target }

def pushFront [DecidableEq ι] (l : Links ι) (head : Option ι) (x : ι) : Links ι :=
  let l := (l.setNext x head).setPrev x Option.none
  match head with
  | Option.none => l
  | some h => l.setPrev h (some x)

def insertAfter [DecidableEq ι] (l : Links ι) (pos x : ι) : Links ι :=
  let after := l.next pos
  let l := ((l.setNext x after).setPrev x (some pos)).setNext pos (some x)
  match after with
  | Option.none => l
  | some y => l.setPrev y (some x)

def unlink [DecidableEq ι] (l : Links ι) (x : ι) : Links ι :=
  let l :=
    match l.next x with
    | Option.none => l
    | some y => l.setPrev y (l.prev x)
  match l.prev x with
  | Option.none => l
  | some y => l.setNext y (l.next x)

def search (l : Links ι) (test : ι → Bool) : Nat → Option ι → Outcome (Option ι)
  | _, Option.none => .ok Option.none
  | 0, some _ => .diverge
  | fuel + 1, some x => if test x then .ok (some x) else search l test fuel (l.next x)

def walk (l : Links ι) : Nat → Option ι → Outcome (List ι)
  | _, Option.none => .ok []
  | 0, some _ => .diverge
  | fuel + 1, some x => do return x :: (← walk l fuel (l.next x))

def skip (l : Links ι) (test : ι → Bool) : Nat → ι → Outcome ι
  | 0, _ => .diverge
  | fuel + 1, pos =>
    match l.next pos with
    | Option.none => .ok pos
    | some y => if test y then skip l test fuel y else .ok pos

section Updates

variable [DecidableEq ι]

variable (l : Links ι)

@[simp] theorem setNext_next (x : ι) (target : Option ι) :
    (l.setNext x target).next = Function.update l.next x target := rfl

@[simp] theorem setNext_prev (x : ι) (target : Option ι) :
    (l.setNext x target).prev = l.prev := rfl

@[simp] theorem setPrev_next (x : ι) (target : Option ι) :
    (l.setPrev x target).next = l.next := rfl

@[simp] theorem setPrev_prev (x : ι) (target : Option ι) :
    (l.setPrev x target).prev = Function.update l.prev x target := rfl

end Updates

def Segment (l : Links ι) (before : Option ι) (xs : List ι) (after : Option ι) : Prop :=
  match xs with
  | [] => True
  | x :: xs => l.prev x = before ∧ l.next x = xs.head?.or after ∧ Segment l (some x) xs after

def Linked (l : Links ι) (xs : List ι) : Prop :=
  l.Segment Option.none xs Option.none

variable {xs : List ι} {before after : Option ι}

theorem Segment.congr {first second : Links ι} (segment : first.Segment before xs after)
    (same : ∀ x ∈ xs, second.next x = first.next x ∧ second.prev x = first.prev x) :
    second.Segment before xs after := by
  induction xs generalizing before with
  | nil => trivial
  | cons x xs ih =>
    obtain ⟨prev, next, rest⟩ := segment
    obtain ⟨sameNext, samePrev⟩ := same x List.mem_cons_self
    exact ⟨samePrev.trans prev, sameNext.trans next,
      ih rest fun y member => same y (List.mem_cons_of_mem x member)⟩

theorem getLast?_or_cons (x : ι) (xs : List ι) (before : Option ι) :
    (x :: xs).getLast?.or before = xs.getLast?.or (some x) := by
  cases xs with
  | nil => rfl
  | cons y ys =>
    have last := List.getLast?_eq_some_getLast (List.cons_ne_nil y ys)
    simp [List.getLast?_cons_cons, last]

theorem segment_append (l : Links ι) (before after : Option ι) (xs ys : List ι) :
    l.Segment before (xs ++ ys) after ↔
      l.Segment before xs (ys.head?.or after) ∧ l.Segment (xs.getLast?.or before) ys after := by
  induction xs generalizing before with
  | nil => simp [Segment]
  | cons x xs ih =>
    have head : (xs ++ ys).head?.or after = xs.head?.or (ys.head?.or after) := by
      cases xs <;> simp
    simp only [List.cons_append, Segment, head, ih, getLast?_or_cons, and_assoc]

variable {l : Links ι}

theorem Segment.flip
    (segment : l.Segment before xs after) : l.flip.Segment after xs.reverse before := by
  induction xs generalizing before with
  | nil => trivial
  | cons x xs ih =>
    obtain ⟨prev, next, rest⟩ := segment
    rw [List.reverse_cons, segment_append]
    refine ⟨by simpa using ih rest, ?_, by simpa [Links.flip] using prev, trivial⟩
    simpa [Links.flip, List.getLast?_reverse] using next

theorem Segment.search_correct (segment : l.Segment before xs Option.none) (test : ι → Bool)
    {fuel : Nat}
    (enough : xs.length ≤ fuel) : l.search test fuel xs.head? = .ok (xs.find? test) := by
  induction xs generalizing before fuel with
  | nil => cases fuel <;> rfl
  | cons x xs ih =>
    obtain ⟨fuel, rfl⟩ : ∃ more, fuel = more + 1 := ⟨fuel - 1, by simp at enough; omega⟩
    obtain ⟨-, next, rest⟩ := segment
    cases found : test x with
    | true => simp [search, found]
    | false => simpa [search, found, next] using ih rest (by simpa using enough)

theorem Segment.walk_correct (segment : l.Segment before xs Option.none) {fuel : Nat}
    (enough : xs.length ≤ fuel) :
    l.walk fuel xs.head? = .ok xs := by
  induction xs generalizing before fuel with
  | nil => cases fuel <;> rfl
  | cons x xs ih =>
    obtain ⟨fuel, rfl⟩ : ∃ more, fuel = more + 1 := ⟨fuel - 1, by simp at enough; omega⟩
    obtain ⟨-, next, rest⟩ := segment
    simp [walk, next, ih rest (by simpa using enough)]

variable {x y : ι}

theorem Segment.skip_correct (segment : l.Segment before (x :: xs) Option.none) (test : ι → Bool)
    {fuel : Nat} (enough : xs.length < fuel) :
    ∃ front pos, l.skip test fuel x = .ok pos ∧ x :: xs.takeWhile test = front ++ [pos] := by
  induction xs generalizing before x fuel with
  | nil =>
    obtain ⟨fuel, rfl⟩ : ∃ more, fuel = more + 1 := ⟨fuel - 1, by omega⟩
    exact ⟨[], x, by simpa [skip] using by simp [segment.2.1], rfl⟩
  | cons y ys ih =>
    obtain ⟨fuel, rfl⟩ : ∃ more, fuel = more + 1 := ⟨fuel - 1, by omega⟩
    obtain ⟨-, next, rest⟩ := segment
    have nextNode : l.next x = some y := by simpa using next
    cases passed : test y with
    | true =>
      obtain ⟨front, pos, stop, split⟩ := ih rest (by simpa using enough)
      exact ⟨x :: front, pos, by simpa [skip, nextNode, passed] using stop, by simp [passed, split]⟩
    | false => exact ⟨[], x, by simp [skip, nextNode, passed], by simp [passed]⟩

variable [DecidableEq ι]

def setLastNext (l : Links ι) (xs : List ι) (target : Option ι) : Links ι :=
  match xs.getLast? with
  | Option.none => l
  | some x => l.setNext x target

def setHeadPrev (l : Links ι) (xs : List ι) (target : Option ι) : Links ι :=
  match xs.head? with
  | Option.none => l
  | some x => l.setPrev x target

theorem Segment.setLastNext (segment : l.Segment before xs after) (distinct : xs.Nodup)
    (target : Option ι) :
    (l.setLastNext xs target).Segment before xs target := by
  rcases List.eq_nil_or_concat xs with rfl | ⟨front, x, rfl⟩
  · trivial
  · rw [List.concat_eq_append] at segment distinct ⊢
    have fresh : x ∉ front := by
      intro member
      exact (List.nodup_append.mp distinct).2.2 x member x (List.mem_singleton.mpr rfl) rfl
    rw [segment_append] at segment ⊢
    simp only [Links.setLastNext, List.getLast?_append, List.getLast?_singleton, Option.some_or]
    refine ⟨segment.1.congr fun y member => ?_, segment.2.1, by simp, trivial⟩
    have different : y ≠ x := fun same => fresh (same ▸ member)
    simp [different]

theorem Segment.setHeadPrev (segment : l.Segment before xs after) (distinct : xs.Nodup)
    (target : Option ι) :
    (l.setHeadPrev xs target).Segment target xs after := by
  cases xs with
  | nil => trivial
  | cons x xs =>
    refine ⟨by simp [Links.setHeadPrev], segment.2.1, segment.2.2.congr fun y member => ?_⟩
    have different : y ≠ x := fun same => (List.nodup_cons.mp distinct).1 (same ▸ member)
    simp [Links.setHeadPrev, different]

theorem setLastNext_outside (l : Links ι) (xs : List ι) (target : Option ι) (outside : y ∉ xs) :
    (l.setLastNext xs target).next y = l.next y ∧ (l.setLastNext xs target).prev y = l.prev y := by
  unfold setLastNext
  split
  · exact ⟨rfl, rfl⟩
  · next x last =>
    have different : y ≠ x := fun same => outside (same ▸ List.mem_of_getLast? last)
    simp [different]

theorem setHeadPrev_outside (l : Links ι) (xs : List ι) (target : Option ι) (outside : y ∉ xs) :
    (l.setHeadPrev xs target).next y = l.next y ∧ (l.setHeadPrev xs target).prev y = l.prev y := by
  unfold setHeadPrev
  split
  · exact ⟨rfl, rfl⟩
  · next x first =>
    have different : y ≠ x := fun same => outside (same ▸ List.mem_of_head? first)
    simp [different]

theorem pushFront_eq (l : Links ι) (xs : List ι) (x : ι) :
    l.pushFront xs.head? x =
      ((l.setNext x xs.head?).setPrev x Option.none).setHeadPrev xs (some x) := by
  cases xs <;> rfl

theorem Linked.pushFront (linked : l.Linked xs) (distinct : xs.Nodup)
    (fresh : x ∉ xs) : (l.pushFront xs.head? x).Linked (x :: xs) := by
  rw [pushFront_eq]
  have own := setHeadPrev_outside ((l.setNext x xs.head?).setPrev x Option.none) xs (some x) fresh
  refine ⟨by simp [own.2], by simp [own.1], ?_⟩
  refine Segment.setHeadPrev (linked.congr fun y member => ?_) distinct (some x)
  have different : y ≠ x := fun same => fresh (same ▸ member)
  simp [different]

theorem pushFront_outside (l : Links ι) (xs : List ι) (different : y ≠ x) (outside : y ∉ xs) :
    (l.pushFront xs.head? x).next y = l.next y ∧ (l.pushFront xs.head? x).prev y = l.prev y := by
  have same := setHeadPrev_outside ((l.setNext x xs.head?).setPrev x Option.none) xs (some x) outside
  rw [pushFront_eq, same.1, same.2]
  simp [different]

theorem Linked.pushBack (linked : l.Linked xs) (distinct : xs.Nodup) (fresh : x ∉ xs) :
    (((l.setNext x Option.none).setPrev x xs.getLast?).setLastNext xs (some x)).Linked (xs ++ [x]) := by
  have own := setLastNext_outside ((l.setNext x Option.none).setPrev x xs.getLast?) xs (some x) fresh
  have kept : ((l.setNext x Option.none).setPrev x xs.getLast?).Segment Option.none xs Option.none := by
    refine linked.congr fun y member => ?_
    have different : y ≠ x := fun same => fresh (same ▸ member)
    simp [different]
  rw [Linked, segment_append]
  refine ⟨kept.setLastNext distinct _, ?_, ?_, trivial⟩
  · rw [own.2]
    simp
  · rw [own.1]
    simp

variable {front back : List ι}

theorem Linked.insertAfter {pos : ι} (linked : l.Linked (front ++ pos :: back))
    (distinct : (front ++ pos :: back).Nodup) (fresh : x ∉ front ++ pos :: back) :
    (l.insertAfter pos x).Linked (front ++ pos :: x :: back) := by
  simp only [List.mem_append, List.mem_cons, not_or] at fresh
  obtain ⟨inFront, atPos, inBack⟩ := fresh
  obtain ⟨-, backDistinct, apart⟩ := List.nodup_append.mp distinct
  obtain ⟨posBack, distinctBack⟩ := List.nodup_cons.mp backDistinct
  obtain ⟨before, prev, next, rest⟩ := (segment_append _ _ _ _ _).mp linked
  rw [Option.or_none] at next
  have shape : l.insertAfter pos x =
      (((l.setNext x back.head?).setPrev x (some pos)).setNext pos (some x)).setHeadPrev back
        (some x) := by
    simp only [Links.insertAfter, next]
    cases back <;> rfl
  have frame {y : ι} (outside : y ∉ back) := setHeadPrev_outside
    (((l.setNext x back.head?).setPrev x (some pos)).setNext pos (some x)) back (some x) outside
  rw [shape, Linked, segment_append]
  refine ⟨before.congr fun y member => ?_, ?_, ?_, ?_, ?_, ?_⟩
  · have inBack : y ∉ back := fun other => apart y member y (List.mem_cons_of_mem _ other) rfl
    have notPos : y ≠ pos := apart y member pos List.mem_cons_self
    have notNew : y ≠ x := fun same => inFront (same ▸ member)
    simp [(frame inBack).1, (frame inBack).2, notPos, notNew]
  · rw [(frame posBack).2]
    simpa [Ne.symm atPos] using prev
  · simp [(frame posBack).1]
  · simp [(frame inBack).2]
  · simp [(frame inBack).1, atPos]
  · refine Segment.setHeadPrev (rest.congr fun y member => ?_) distinctBack (some x)
    have notPos : y ≠ pos := fun same => posBack (same ▸ member)
    have notNew : y ≠ x := fun same => inBack (same ▸ member)
    simp [notPos, notNew]

section

variable (linked : l.Linked (front ++ x :: back))
include linked

section

variable (distinct : (front ++ x :: back).Nodup)
include distinct

theorem unlink_eq :
    l.unlink x =
      (l.setHeadPrev back front.getLast?).setLastNext front back.head? := by
  obtain ⟨-, prev, next, -⟩ := (segment_append _ _ _ _ _).mp linked
  rw [Option.or_none] at prev next
  have inBack : x ∉ back := (List.nodup_cons.mp (List.nodup_append.mp distinct).2.1).1
  obtain ⟨sameNext, samePrev⟩ := setHeadPrev_outside l back front.getLast? inBack
  have first : (match l.next x with
      | Option.none => l
      | some y => l.setPrev y (l.prev x)) = l.setHeadPrev back front.getLast? := by
    rw [next, prev]
    rfl
  simp only [Links.unlink]
  rw [first, sameNext, samePrev, next, prev]
  rfl

theorem Linked.unlink :
    (l.unlink x).Linked (front ++ back) := by
  rw [unlink_eq linked distinct]
  obtain ⟨frontDistinct, backDistinct, apart⟩ := List.nodup_append.mp distinct
  obtain ⟨before, -, -, rest⟩ := (segment_append _ _ _ _ _).mp linked
  rw [Linked, segment_append]
  constructor
  · rw [Option.or_none]
    refine (before.congr fun y member => ?_).setLastNext frontDistinct back.head?
    refine setHeadPrev_outside l back _ fun other => ?_
    exact apart y member y (List.mem_cons_of_mem _ other) rfl
  · rw [Option.or_none]
    refine (rest.setHeadPrev (List.nodup_cons.mp backDistinct).2 _).congr fun y member => ?_
    refine setLastNext_outside _ front _ fun other => ?_
    exact apart y other y (List.mem_cons_of_mem _ member) rfl

theorem unlink_self :
    (l.unlink x).next x = l.next x ∧ (l.unlink x).prev x = l.prev x := by
  obtain ⟨-, backDistinct, apart⟩ := List.nodup_append.mp distinct
  have inFront : x ∉ front := fun member => apart x member x List.mem_cons_self rfl
  have inBack : x ∉ back := (List.nodup_cons.mp backDistinct).1
  have last := setLastNext_outside (l.setHeadPrev back front.getLast?) front back.head? inFront
  have head := setHeadPrev_outside l back front.getLast? inBack
  rw [unlink_eq linked distinct, last.1, last.2]
  exact head

theorem unlink_outside (outside : y ∉ front ++ x :: back) :
    (l.unlink x).next y = l.next y ∧ (l.unlink x).prev y = l.prev y := by
  simp only [List.mem_append, List.mem_cons, not_or] at outside
  have last := setLastNext_outside (l.setHeadPrev back front.getLast?) front back.head? outside.1
  have head := setHeadPrev_outside l back front.getLast? outside.2.2
  rw [unlink_eq linked distinct, last.1, last.2]
  exact head

end

end

end Links

end Lemming.Shared
