import Mathlib.Algebra.Group.Nat.Defs
import Lemming.Shared.Iteration
import Lemming.Shared.Outcome

set_option autoImplicit false

namespace Lemming.Bgp

open Shared

structure Tracker (κ : Type) where
  lastIndex : UInt64
  allocs : GoMap κ UInt64
  indiciesInUse : GoMap UInt64 κ
  indiciesInUseNext : GoMap UInt64 κ

namespace Tracker

variable {κ : Type} [DecidableEq κ]

def new (κ : Type) : Tracker κ := ⟨0, ∅, ∅, ∅⟩

def beginAllocation (r : Tracker κ) : Tracker κ := { r with indiciesInUseNext := ∅ }

def completeAllocation (r : Tracker κ) : Tracker κ where
  lastIndex := r.lastIndex
  allocs := r.indiciesInUse.entries.foldl (fun allocs entry =>
    if (r.indiciesInUseNext.lookup entry.1).isSome then allocs else allocs.erase entry.2) r.allocs
  indiciesInUse := r.indiciesInUseNext
  indiciesInUseNext := ∅

def getOrAllocIndex (r : Tracker κ) (key : κ) : Outcome (Tracker κ × UInt64) :=
  match r.allocs.lookup key with
  | some i => .ok ({ r with indiciesInUseNext := r.indiciesInUseNext.insert i key }, i)
  | none =>
    if r.indiciesInUse.entries.length = 0x7fffffffffffffff then .panic
    else
      let i := r.lastIndex + 1
      -- The loop condition is computed once, before the loop, so an index in use is never passed.
      if (r.indiciesInUse.lookup i).isSome then .diverge
      else .ok (⟨i, r.allocs.insert key i, r.indiciesInUse.insert i key,
        r.indiciesInUseNext.insert i key⟩, i)

end Tracker

structure Session (κ : Type) where
  tracker : Tracker κ
  previous : List (κ × UInt64)
  given : List (κ × UInt64)
  allocated : Nat

namespace Session

variable {κ : Type} [DecidableEq κ]

def new (κ : Type) : Session κ := ⟨.new κ, [], [], 0⟩

def start (s : Session κ) : Session κ :=
  { s with tracker := s.tracker.beginAllocation, previous := s.given, given := [] }

def get (s : Session κ) (key : κ) : Outcome (Session κ) := do
  let (tracker, i) ← s.tracker.getOrAllocIndex key
  return { s with
    tracker
    given := s.given ++ [(key, i)]
    allocated := s.allocated + if (s.tracker.allocs.lookup key).isSome then 0 else 1 }

def complete (s : Session κ) : Session κ := { s with tracker := s.tracker.completeAllocation }

def round (s : Session κ) (keys : List κ) : Outcome (Session κ) := do
  let s ← keys.foldlM get s.start
  return s.complete

-- Some whole rounds, and the calls of one that is not completed.
def run (rounds : List (List κ)) (keys : List κ) : Outcome (Session κ) := do
  let s ← rounds.foldlM round (new κ)
  keys.foldlM get s.start

-- The two directions of the table agree, and the indices are those that the counter has passed.
structure Sound (s : Session κ) : Prop where
  inverse : ∀ key i, s.tracker.allocs.lookup key = some i ↔ s.tracker.indiciesInUse.lookup i = some key
  given : ∀ key i, (key, i) ∈ s.given → s.tracker.allocs.lookup key = some i
  counted : s.tracker.lastIndex.toNat = s.allocated
  passed : ∀ i key, s.tracker.indiciesInUse.lookup i = some key → i.toNat ≤ s.allocated

structure Open (s : Session κ) : Prop extends Sound s where
  next : ∀ i key, s.tracker.indiciesInUseNext.lookup i = some key ↔ (key, i) ∈ s.given
  previous : ∀ key i, (key, i) ∈ s.previous → s.tracker.allocs.lookup key = some i

variable {s s' : Session κ} {key : κ}

theorem new_sound (κ : Type) [DecidableEq κ] : (new κ).Sound :=
  ⟨fun _ _ => by simp [new, Tracker.new], nofun, rfl, fun _ _ inUse => by simp [new, Tracker.new] at inUse⟩

theorem Sound.start (sound : s.Sound) : s.start.Open where
  inverse := sound.inverse
  given := nofun
  counted := sound.counted
  passed := sound.passed
  next := by simp [Session.start, Tracker.beginAllocation]
  previous := sound.given

theorem Open.used (opened : s.Open) {i : UInt64} {other : κ}
    (isNext : s.tracker.indiciesInUseNext.lookup i = some other) :
    s.tracker.indiciesInUse.lookup i = some other :=
  (opened.inverse other i).mp (opened.given other i ((opened.next i other).mp isNext))

theorem Open.give (opened : s.Open) {i lastIndex : UInt64} {allocs : GoMap κ UInt64}
    {inUse : GoMap UInt64 κ} {allocated : Nat}
    (isAllocs : ∀ other j, allocs.lookup other = some j ↔
      other = key ∧ j = i ∨ s.tracker.allocs.lookup other = some j)
    (isInUse : ∀ j other, inUse.lookup j = some other ↔
      j = i ∧ other = key ∨ s.tracker.indiciesInUse.lookup j = some other)
    (counted : lastIndex.toNat = allocated) (passed : i.toNat ≤ allocated)
    (grows : s.allocated ≤ allocated) :
    Open ⟨⟨lastIndex, allocs, inUse, s.tracker.indiciesInUseNext.insert i key⟩, s.previous,
      s.given ++ [(key, i)], allocated⟩ := by
  refine { inverse := ?_, given := ?_, counted, passed := ?_, next := ?_, previous := ?_ }
  · intro other j
    rw [isAllocs, isInUse, opened.inverse, and_comm]
  · intro other j isGiven
    rw [isAllocs]
    rcases List.mem_append.mp isGiven with old | new
    · exact .inr (opened.given other j old)
    · cases List.mem_singleton.mp new
      exact .inl ⟨rfl, rfl⟩
  · intro j other found
    rcases (isInUse j other).mp found with ⟨rfl, -⟩ | old
    · exact passed
    · exact (opened.passed j other old).trans grows
  · intro j other
    have same : ∀ old, s.tracker.indiciesInUseNext.lookup i = some old → old = key := by
      intro old isNext
      have held := (isInUse i old).mpr (.inr (opened.used isNext))
      exact Option.some.inj (held.symm.trans ((isInUse i key).mpr (.inl ⟨rfl, rfl⟩)))
    rw [GoMap.lookup_insert_iff same, opened.next, List.mem_append, List.mem_singleton, Prod.mk.injEq,
      or_comm, and_comm]
  · exact fun other j old => (isAllocs other j).mpr (.inr (opened.previous other j old))

theorem Open.get (opened : s.Open) (few : s.allocated < 2 ^ 64 - 1) (key : κ) :
    (s.get key).Yields Open ∨
      s.get key = .panic ∧ s.tracker.indiciesInUse.entries.length = 0x7fffffffffffffff := by
  rw [Session.get, Tracker.getOrAllocIndex]
  cases isIndex : s.tracker.allocs.lookup key with
  | some i =>
    have inUse := (opened.inverse key i).mp isIndex
    refine .inl (.pure (opened.give ?_ ?_ opened.counted (opened.passed i key inUse) (Nat.le_refl _)))
    · exact fun other j => ⟨.inr, fun held => held.elim (by rintro ⟨rfl, rfl⟩; exact isIndex) id⟩
    · exact fun j other => ⟨.inr, fun held => held.elim (by rintro ⟨rfl, rfl⟩; exact inUse) id⟩
  | none =>
    dsimp only
    split
    · next full => exact .inr ⟨rfl, full⟩
    · have grown : (s.tracker.lastIndex + 1).toNat = s.allocated + 1 := by
        rw [UInt64.toNat_add, opened.counted]
        exact Nat.mod_eq_of_lt (by simp; omega)
      have free : s.tracker.indiciesInUse.lookup (s.tracker.lastIndex + 1) = none := by
        cases inUse : s.tracker.indiciesInUse.lookup (s.tracker.lastIndex + 1) with
        | none => rfl
        | some other =>
          have := opened.passed _ _ inUse
          omega
      rw [free]
      refine .inl (.pure (opened.give (GoMap.lookup_insert_iff ?_) (GoMap.lookup_insert_iff ?_) grown
        (Nat.le_of_eq grown) (Nat.le_succ _)))
      · simp [isIndex]
      · simp [free]

theorem erased_lookup (used : GoMap UInt64 κ) (entries : List (Sigma fun _ : UInt64 => κ))
    (allocs : GoMap κ UInt64) (key : κ) (i : UInt64) :
    (entries.foldl (fun allocs entry =>
      if (used.lookup entry.1).isSome then allocs else allocs.erase entry.2) allocs).lookup key =
        some i ↔
      allocs.lookup key = some i ∧
        ∀ entry ∈ entries, entry.2 = key → (used.lookup entry.1).isSome = true := by
  induction entries generalizing allocs with
  | nil => simp
  | cons entry rest ih =>
    rw [List.foldl_cons, ih, List.forall_mem_cons]
    split
    · next kept => simp [kept]
    · next dropped =>
      by_cases same : entry.2 = key
      · subst same
        simp [dropped]
      · simp [same, AList.lookup_erase_ne (Ne.symm same)]

theorem Open.complete_lookup (opened : s.Open) (key : κ) (i : UInt64) :
    s.complete.tracker.allocs.lookup key = some i ↔ (key, i) ∈ s.given := by
  have listed (j : UInt64) : ⟨j, key⟩ ∈ s.tracker.indiciesInUse.entries ↔
      s.tracker.allocs.lookup key = some j := by
    rw [opened.inverse]
    exact AList.mem_lookup_iff.symm
  rw [complete, Tracker.completeAllocation, erased_lookup]
  constructor
  · rintro ⟨isIndex, kept⟩
    obtain ⟨other, isNext⟩ := Option.isSome_iff_exists.mp (kept ⟨i, key⟩ ((listed i).mpr isIndex) rfl)
    cases ((opened.inverse key i).mp isIndex).symm.trans (opened.used isNext)
    exact (opened.next i key).mp isNext
  · intro isGiven
    have isIndex := opened.given key i isGiven
    refine ⟨isIndex, ?_⟩
    -- The key has one index only.
    rintro ⟨j, _⟩ member rfl
    cases isIndex.symm.trans ((listed j).mp member)
    rw [(opened.next i _).mpr isGiven]
    rfl

theorem Open.complete (opened : s.Open) : s.complete.Sound where
  inverse := fun key i => (opened.complete_lookup key i).trans (opened.next i key).symm
  given := fun key i isGiven => (opened.complete_lookup key i).mpr isGiven
  counted := opened.counted
  passed := fun i key isNext => opened.passed i key (opened.used isNext)

theorem gets_open (keys : List κ) (sound : s.allocated < 2 ^ 64 - 1 → s.Sound) :
    (keys.foldlM Session.get s.start).Whenever fun s' =>
      s'.given.map Prod.fst = keys ∧ (s'.allocated < 2 ^ 64 - 1 → s'.Open) := by
  intro result isOk
  have begun : s.start.given.map Prod.fst = [] ∧ (s.start.allocated < 2 ^ 64 - 1 → s.start.Open) :=
    ⟨rfl, fun few => (sound few).start⟩
  refine Outcome.foldlM_history (I := fun done (s : Session κ) =>
    s.given.map Prod.fst = done ∧ (s.allocated < 2 ^ 64 - 1 → s.Open)) ?_ begun isOk
  rintro done s key next ⟨isDone, opened⟩ isOk
  obtain ⟨call, -, isNext⟩ := Outcome.bind_eq_ok.mp isOk
  have grows : s.allocated ≤ next.allocated := by
    cases isNext
    exact Nat.le_add_right _ _
  constructor
  · cases isNext
    rw [List.map_append, isDone]
    rfl
  · intro few
    rcases (opened (grows.trans_lt few)).get (grows.trans_lt few) key with yields | ⟨full, -⟩
    · exact yields.whenever next isOk
    · cases full.symm.trans isOk

theorem run_open (rounds : List (List κ)) (keys : List κ) :
    (run rounds keys).Whenever fun s =>
      s.given.map Prod.fst = keys ∧ (s.allocated < 2 ^ 64 - 1 → s.Open) := by
  intro result isOk
  obtain ⟨s, isRounds, isOk⟩ := Outcome.bind_eq_ok.mp isOk
  refine gets_open keys ?_ result isOk
  refine @Outcome.foldlM_history _ _ round rounds [] (new κ) s
    (fun _ s => s.allocated < 2 ^ 64 - 1 → s.Sound) ?_ (fun _ => new_sound κ) isRounds
  intro _ s keys next sound isOk few
  obtain ⟨last, isLast, isNext⟩ := Outcome.bind_eq_ok.mp isOk
  cases isNext
  exact ((gets_open keys sound last isLast).2 few).complete

end Session

def Tracker.Consistent {κ : Type} [DecidableEq κ] (r : Tracker κ) : Prop :=
  (∀ key i, r.allocs.lookup key = some i ↔ r.indiciesInUse.lookup i = some key) ∧
    ∀ key other i, r.allocs.lookup key = some i → r.allocs.lookup other = some i → key = other

theorem Session.Sound.consistent {κ : Type} [DecidableEq κ] {s : Session κ} (sound : s.Sound) :
    s.tracker.Consistent := by
  refine ⟨sound.inverse, fun key other i first second => ?_⟩
  rw [sound.inverse] at first second
  exact Option.some.inj (first.symm.trans second)

theorem index_allocation {κ : Type} [DecidableEq κ] (rounds : List (List κ)) (keys : List κ) :
    (Session.run rounds keys).Whenever fun s => s.given.map Prod.fst = keys ∧
      (s.allocated < 2 ^ 64 - 1 → s.tracker.Consistent ∧ s.complete.tracker.Consistent ∧
      (∀ key i j, (key, i) ∈ s.previous → (key, j) ∈ s.given → i = j) ∧
      (∀ key i, s.complete.tracker.allocs.lookup key = some i ↔ (key, i) ∈ s.given) ∧
      ∀ key, (∃ s', s.get key = .ok s') ∨
        s.get key = .panic ∧ s.tracker.indiciesInUse.entries.length = 0x7fffffffffffffff) := by
  intro s isRun
  obtain ⟨isKeys, opened⟩ := Session.run_open rounds keys s isRun
  refine ⟨isKeys, fun few => ?_⟩
  have opened := opened few
  refine ⟨opened.consistent, opened.complete.consistent, fun key i j isOld isGiven => ?_,
    opened.complete_lookup, fun key => ?_⟩
  · exact Option.some.inj ((opened.previous key i isOld).symm.trans (opened.given key j isGiven))
  · exact (opened.get few key).imp_left fun ⟨s', isOk, _⟩ => ⟨s', isOk⟩

end Lemming.Bgp
