import Lemming.Shared.Worklist
import Lemming.Action.Bound

set_option autoImplicit false

namespace Lemming.Action

open Shared Shared.Worklist

section

variable {σ A : Type} {n : Nat}

structure Trace (σ A : Type) (n : Nat) where
  packet : σ
  executed : List (A × Returned A n)

def World.trace (world : World σ A n) : Trace σ A n := ⟨world.packet, world.executed⟩

variable (b : Behaviour σ A n)

def Behaviour.ran (t : Trace σ A n) (a : A) : Trace σ A n × Returned A n × State :=
  let (packet, returned, state) := b.process a t.packet
  (⟨packet, t.executed ++ [(a, returned)]⟩, returned, state)

def visitDeferred : Visit (ActionAttr A) (Trace σ A n) State := fun _ a t =>
  let (t, returned, state) := b.ran t a.action
  if state = .EVALUATE ∨ state = .CONTINUE then some (t, .inl (b.list returned))
  else some (t, .inr state)

def visit : Visit (ActionAttr A) (Trace σ A n × List (ActionAttr A)) State :=
  fun depth a (t, deferred) =>
    if a.onEvaluate then some ((t, deferred ++ [a]), .inl [])
    else
      let (t, returned, state) := b.ran t a.action
      if state = .EVALUATE then
        match inOrder (recurse (visitDeferred b) depth) deferred t with
        | none => none
        | some (t, some state) => some ((t, []), .inr state)
        | some (t, none) => some ((t, []), .inl (b.list returned))
      else if state = .CONTINUE then some ((t, deferred), .inl (b.list returned))
      else some ((t, deferred), .inr state)

def reference (depth : Nat) (packet : σ) (actions : Returned A n) : Option (Trace σ A n × State) :=
  match inOrder (recurse (visit b) depth) (b.list actions) (⟨packet, []⟩, []) with
  | none => none
  | some ((t, _), none) => some (t, .CONTINUE)
  | some ((t, _), some state) => some (t, state)

variable {b}

theorem Behaviour.ran_executed {t t' : Trace σ A n} {a : A} {returned : Returned A n} {state : State}
    (ran : b.ran t a = (t', returned, state)) : t'.executed = t.executed ++ [(a, returned)] := by
  cases ran
  rfl

theorem visitDeferred_lasting : Lasting (visitDeferred b) :=
  fun _ _ _ _ _ visited _ => visited

theorem visit_lasting : Lasting (visit b) := by
  intro depth more a w r visited le
  obtain ⟨t, deferred⟩ := w
  unfold visit at *
  dsimp only at *
  split
  · next tagged => rwa [if_pos tagged] at visited
  next untagged =>
  rw [if_neg untagged] at visited
  split
  · next evaluates =>
    rw [if_pos evaluates] at visited
    cases ran : inOrder (recurse (visitDeferred b) depth) deferred (b.ran t a.action).1 with
    | none =>
      rw [ran] at visited
      cases visited
    | some result =>
      rw [inOrder_mono (recurse_mono visitDeferred_lasting le) ran]
      rwa [ran] at visited
  · next goesOn => rwa [if_neg goesOn] at visited

variable {a : ActionAttr A}

theorem visitDeferred_mono {depth : Nat} {t : Trace σ A n}
    {r : Trace σ A n × (List (ActionAttr A) ⊕ State)} (visited : visitDeferred b depth a t = some r) :
    r.1.executed.length = t.executed.length + 1 := by
  unfold visitDeferred at visited
  dsimp only at visited
  split at visited
  all_goals
    cases visited
    simp [Behaviour.ran]

theorem endsDeferred_mono {actions : List (ActionAttr A)} {t : Trace σ A n}
    {r : Trace σ A n × Option State} (ends : Ends (visitDeferred b) actions t r) :
    t.executed.length ≤ r.1.executed.length := by
  apply ends.invariant (fun t' => t.executed.length ≤ t'.executed.length) _ (Nat.le_refl _)
  intro depth a w r visited le
  have := visitDeferred_mono visited
  omega

theorem endsDeferred_cons {rest : List (ActionAttr A)} {t : Trace σ A n}
    {r : Trace σ A n × Option State} (ends : Ends (visitDeferred b) (a :: rest) t r) :
    t.executed.length + 1 ≤ r.1.executed.length := by
  obtain ⟨depth, w', ⟨e, visited, rfl⟩ | ⟨more, visited, onward⟩⟩ := ends.cons_cases
  · exact (visitDeferred_mono visited).ge
  · exact (visitDeferred_mono visited).ge.trans (endsDeferred_mono onward)

theorem visit_mono {depth : Nat} {w : Trace σ A n × List (ActionAttr A)}
    {r : (Trace σ A n × List (ActionAttr A)) × (List (ActionAttr A) ⊕ State)}
    (visited : visit b depth a w = some r) : w.1.executed.length ≤ r.1.1.executed.length := by
  obtain ⟨t, deferred⟩ := w
  obtain ⟨t', returned, state, ran⟩ : ∃ t' r s, b.ran t a.action = (t', r, s) := ⟨_, _, _, rfl⟩
  have grows : t.executed.length ≤ t'.executed.length := by
    rw [b.ran_executed ran, List.length_append]
    exact Nat.le_add_right _ _
  unfold visit at visited
  dsimp only at visited
  rw [ran] at visited
  dsimp only at visited
  split at visited
  · cases visited
    exact Nat.le_refl _
  split at visited
  · split at visited
    · cases visited
    all_goals
      next recursed =>
      cases visited
      exact grows.trans
        (endsDeferred_mono ((ends_iff visitDeferred_lasting _ _ _).mpr ⟨depth, recursed⟩))
  · split at visited <;> cases visited <;> exact grows

theorem ends_mono {actions : List (ActionAttr A)} {w : Trace σ A n × List (ActionAttr A)}
    {r : (Trace σ A n × List (ActionAttr A)) × Option State} (ends : Ends (visit b) actions w r) :
    w.1.executed.length ≤ r.1.1.executed.length := by
  apply ends.invariant (fun w' => w.1.executed.length ≤ w'.1.executed.length) _ (Nat.le_refl _)
  intro depth a w r visited le
  exact le.trans (visit_mono visited)

theorem reference_iff {packet : σ} {actions : Returned A n} {t : Trace σ A n} {state : State} :
    (∃ depth, reference b depth packet actions = some (t, state)) ↔
      ∃ deferred ending, state = ending.getD .CONTINUE ∧
        Ends (visit b) (b.list actions) (⟨packet, []⟩, []) ((t, deferred), ending) := by
  constructor
  · intro ⟨depth, isReference⟩
    unfold reference at isReference
    split at isReference
    · cases isReference
    all_goals
      next recursed =>
      cases isReference
      exact ⟨_, _, rfl, (ends_iff visit_lasting _ _ _).mpr ⟨depth, recursed⟩⟩
  · intro ⟨deferred, ending, isState, ends⟩
    obtain ⟨depth, recursed⟩ := (ends_iff visit_lasting _ _ _).mp ends
    refine ⟨depth, ?_⟩
    rw [reference, recursed, isState]
    cases ending <;> rfl

end

variable {σ A : Type} {n : Nat} {b : Behaviour σ A n}

namespace Behaviour

structure Intact (b : Behaviour σ A n) (heap : Heap (ActionAttr A)) : Prop where
  sound : b.heap.Grown heap
  lists : ∀ i : Fin n, (b.stored i).get heap = (b.kept i).list

theorem heap_intact (b : Behaviour σ A n) : b.Intact b.heap := by
  refine ⟨.refl _, fun i => ?_⟩
  rw [Slice.get, stored, b.array_heap, slice, List.drop_zero]
  rfl

theorem Intact.wrote {world world' : World σ A n} (intact : b.Intact world.heap)
    (wrote : world.Wrote b world') : b.Intact world'.heap := by
  obtain ⟨since, -, behind, only⟩ := wrote
  refine ⟨intact.sound.trans only.1, fun i => ?_⟩
  rw [only.2 _ ((b.stored_inside i).grown intact.sound), intact.lists i]
  intro s mem
  obtain ⟨j, covers⟩ := behind s mem
  apply covers.apart
  by_cases same : i = j
  · subst same
    exact Or.inr (Or.inr (by simp [spare, stored]))
  · exact Or.inl fun eq => same (Fin.ext eq.symm)

end Behaviour

section Acting

variable {world world' world'' : World σ A n} {next : Slice} {state : State} {a : A}

def Behaviour.Held (b : Behaviour σ A n) (heap : Heap (ActionAttr A)) (next : Slice) :
    Returned A n → Prop
  | .kept i => next = b.stored i
  | .new actions => next.Inside heap ∧ n ≤ next.array ∧
      next.off + next.len = (heap.array next.array).length ∧ next.get heap = actions

namespace Behaviour.Held

variable {returned : Returned A n} (held : b.Held world.heap next returned)
include held

theorem inside (intact : b.Intact world.heap) : next.Inside world.heap := by
  cases returned with
  | kept i =>
    cases held
    exact (b.stored_inside i).grown intact.sound
  | new actions => exact held.1

theorem get_eq (intact : b.Intact world.heap) : next.get world.heap = b.list returned := by
  cases returned with
  | kept i =>
    cases held
    exact intact.lists i
  | new actions => exact held.2.2.2

theorem wrote (wrote : world.Wrote b world') : b.Held world'.heap next returned := by
  cases returned with
  | kept i => exact held
  | new actions =>
    obtain ⟨inside, new, full, holds⟩ := held
    obtain ⟨since, -, behind, only⟩ := wrote
    refine ⟨inside.grown only.1, new, ?_, ?_⟩
    · rw [only.1.2 _ inside.1, full]
    · rw [only.2 _ inside, holds]
      intro s mem
      obtain ⟨i, covers⟩ := behind s mem
      exact covers.apart (Or.inl (by simp only [spare]; omega))

theorem append_wrote (intact : b.Intact world.heap) {new : List (ActionAttr A)} (some : new ≠ []) :
    world.Wrote b (world.append next new).1 := by
  cases returned with
  | kept i =>
    cases held
    exact World.append_stored intact.sound i new
  | new actions =>
    -- The array of a new list is full.
    have none : next.inPlace world.heap new = [] := by
      have more := List.length_pos_iff.mpr some
      have full := held.2.2.1
      rw [Slice.inPlace, if_neg (by omega)]
    refine ⟨[], ?_, nofun, ?_⟩
    · rw [List.append_nil]
      exact (congrArg (world.written ++ ·) none).trans (List.append_nil _)
    · rw [← none]
      exact .append_inPlace held.1.1

end Behaviour.Held

theorem Behaviour.act_ran (intact : b.Intact world.heap)
    (acted : b.act world a = (world', next, state)) :
    ∃ returned, b.ran world.trace a = (world'.trace, returned, state) ∧
      world.Wrote b world' ∧ b.Held world'.heap next returned := by
  obtain ⟨packet, returned, heap, written, processed, wrote, held⟩ := b.act_eq intact.sound acted
  obtain ⟨sameRan, samePacket, wrote', -⟩ := b.hold_spec (intact.sound.trans wrote.grown) held
  refine ⟨returned, ?_, wrote.trans wrote', ?_⟩
  · simp only [ran, World.trace, processed, sameRan, samePacket]
  cases returned with
  | kept i =>
    cases held
    rfl
  | new actions =>
    cases held
    refine ⟨Slice.alloc_inside _ _, ?_, ?_, Slice.get_alloc_new _⟩
    · have grown := (intact.sound.trans wrote.grown).1
      rw [Behaviour.heap, List.length_ofFn] at grown
      exact grown
    · simp [Heap.array, List.getD_eq_getElem?_getD]

variable {actions : Slice}

theorem get_pending {heap : Heap (ActionAttr A)} {curr : Nat} (inside : actions.Inside heap)
    (more : curr ≤ actions.len) :
    (pending actions curr).get heap = (actions.get heap).drop curr := by
  rw [pending, Slice.get_sub (by omega), slice, List.take_of_length_le]
  rw [List.length_drop, Slice.get_length inside]

theorem follow_view {actions' : Slice} {curr : Nat} (inside : actions.Inside world.heap)
    (nextIn : next.Inside world.heap) (more : curr ≤ actions.len)
    (followed : follow world actions curr next = (world', actions')) :
    actions'.get world'.heap = next.get world.heap ++ (actions.get world.heap).drop curr := by
  unfold follow at followed
  split at followed
  · next last =>
    cases followed
    rw [last, List.drop_of_length_le (Slice.get_length inside).le, List.append_nil]
  · cases followed
    rw [← get_pending inside more]
    exact Slice.get_append nextIn

theorem follow_wrote {actions' : Slice} {curr : Nat} {returned : Returned A n}
    (held : b.Held world.heap next returned) (intact : b.Intact world.heap)
    (inside : actions.Inside world.heap) (more : curr ≤ actions.len)
    (followed : follow world actions curr next = (world', actions')) : world.Wrote b world' := by
  unfold follow at followed
  split at followed
  · cases followed
    exact .refl b world
  · next notLast =>
    cases followed
    apply held.append_wrote intact
    rw [get_pending inside more]
    intro none
    have := List.drop_eq_nil_iff.mp none
    rw [Slice.get_length inside] at this
    omega

end Acting

section Evaluating

variable {before : Nat} {c : Evaluation σ A n} {a : ActionAttr A} {rest : List (ActionAttr A)}

theorem evaluateStep_acts {world : World σ A n} {next : Slice} {state : State}
    (more : c.curr < c.actions.len) (isAction : (c.actions.get c.world.heap)[c.curr]? = some a)
    (acted : b.act c.world a.action = (world, next, state)) :
    evaluateStep b c =
      if c.exec + 1 = maxActions then .ok (.inr ⟨world, .DROP, c.exec + 1, some exceedsText⟩)
      else if (if state = .EVALUATE then State.CONTINUE else state) ≠ .CONTINUE then
        .ok (.inr ⟨world, if state = .EVALUATE then .CONTINUE else state, c.exec + 1, none⟩)
      else if next.len ≠ 0 then
        .ok (.inl ⟨(follow world c.actions (c.curr + 1) next).1,
          (follow world c.actions (c.curr + 1) next).2, 0, c.exec + 1,
          if state = .EVALUATE then .CONTINUE else state⟩)
      else .ok (.inl ⟨world, c.actions, c.curr + 1, c.exec + 1,
          if state = .EVALUATE then .CONTINUE else state⟩) := by
  rw [evaluateStep, if_pos more, isAction]
  dsimp only
  rw [acted]

theorem evaluateStep_wrote (sound : c.Sound b before) (intact : b.Intact c.world.heap) :
    (evaluateStep b c).Whenever fun next =>
      c.world.Wrote b (next.elim Evaluation.world Evaluated.world) := by
  by_cases more : c.curr < c.actions.len
  · obtain ⟨a, isAction⟩ := Slice.get_cell sound.actions more
    obtain ⟨world, next, state, acted⟩ : ∃ w s t, b.act c.world a.action = (w, s, t) :=
      ⟨_, _, _, rfl⟩
    obtain ⟨returned, -, wrote, held⟩ := b.act_ran intact acted
    rw [evaluateStep_acts more isAction acted]
    generalize (if state = .EVALUATE then State.CONTINUE else state) = state
    split
    · exact .pure wrote
    split
    · exact .pure wrote
    split
    · exact .pure (wrote.trans (follow_wrote held (intact.wrote wrote)
        (sound.actions.grown wrote.grown) more rfl))
    · exact .pure wrote
  · rw [evaluateStep, if_neg more]
    exact .pure (.refl b _)

theorem evaluateStart_wrote (b : Behaviour σ A n) (world : World σ A n)
    (evaluate : List (ActionAttr A)) : world.Wrote b (evaluateStart world evaluate).world :=
  ⟨[], (List.append_nil _).symm, nofun, .alloc _ _ _⟩

structure Evaluation.Since (b : Behaviour σ A n) (world : World σ A n) (c : Evaluation σ A n) :
    Prop where
  sound : c.Sound b world.executed.length
  intact : b.Intact c.world.heap
  wrote : world.Wrote b c.world

theorem evaluateStart_since {world : World σ A n} (intact : b.Intact world.heap)
    (evaluate : List (ActionAttr A)) : (evaluateStart world evaluate).Since b world := by
  have wrote := evaluateStart_wrote b world evaluate
  refine ⟨⟨intact.sound.trans wrote.grown, Slice.alloc_inside _ _, rfl, Nat.zero_lt_succ 99⟩, ?_, wrote⟩
  exact intact.wrote wrote

theorem Evaluation.Since.pass {world : World σ A n} {d : Evaluation σ A n} (since : c.Since b world)
    (goes : evaluateStep b c = .ok (.inl d)) : d.Since b world := by
  have wrote : c.world.Wrote b d.world := evaluateStep_wrote since.sound since.intact _ goes
  obtain ⟨⟨sound, -⟩, -⟩ := (evaluateStep_spec since.sound).whenever _ goes
  exact ⟨sound, since.intact.wrote wrote, since.wrote.trans wrote⟩

theorem evaluatePacket_wrote {world : World σ A n} (intact : b.Intact world.heap)
    (evaluate : List (ActionAttr A)) :
    (evaluatePacket b world evaluate).Whenever fun r => world.Wrote b r.world := by
  refine Machine.run_whenever (fun c => c.Since b world) (fun c since => ?_)
    (evaluateStart_since intact evaluate) maxActions
  intro next goes
  cases next with
  | inl d => exact since.pass goes
  | inr r => exact since.wrote.trans (evaluateStep_wrote since.sound since.intact _ goes)

-- What was overwritten between the two are not the cells in which pending actions stand.
def Spared (world world' : World σ A n) (pending : Slice) : Prop :=
  pending.len = 0 ∨ ∀ s ∈ world'.written.drop world.written.length, s.Apart pending

theorem Spared.get_eq {world world' : World σ A n} {pending : Slice}
    (spared : Spared world world' pending) (wrote : world.Wrote b world')
    (inside : pending.Inside world.heap) : pending.get world'.heap = pending.get world.heap := by
  obtain ⟨since, isWritten, -, only⟩ := wrote
  rw [Spared, isWritten, List.drop_left] at spared
  rcases spared with none | apart
  · have empty : ∀ heap : Heap (ActionAttr A), pending.get heap = [] := by
      intro heap
      rw [Slice.get, none, slice, List.take_zero]
    rw [empty, empty]
  · exact only.2 pending inside apart

theorem Spared.drop_eq {world world' : World σ A n} {actions : Slice} {curr : Nat}
    (spared : Spared world world' (pending actions curr)) (wrote : world.Wrote b world')
    (inside : actions.Inside world.heap) (more : curr ≤ actions.len) :
    (actions.get world'.heap).drop curr = (actions.get world.heap).drop curr := by
  rw [← get_pending (inside.grown wrote.grown) more, ← get_pending inside more]
  exact spared.get_eq wrote ((Slice.covers_sub (by omega)).inside inside)

-- If the run goes on after the next action, what this one overwrites is not pending.
def Evaluation.Undisturbed (b : Behaviour σ A n) (c : Evaluation σ A n) : Prop :=
  ∀ a world next state, c.curr < c.actions.len →
    (c.actions.get c.world.heap)[c.curr]? = some a →
    b.act c.world a.action = (world, next, state) → state = .EVALUATE ∨ state = .CONTINUE →
    Spared c.world world (pending c.actions (c.curr + 1))

structure Evaluation.Views (b : Behaviour σ A n) (before : Nat) (c : Evaluation σ A n)
    (actions : List (ActionAttr A)) : Prop where
  sound : c.Sound b before
  intact : b.Intact c.world.heap
  remaining : (c.actions.get c.world.heap).drop c.curr = actions
  continues : c.state = .CONTINUE

theorem evaluateStep_done (views : c.Views b before []) :
    evaluateStep b c = .ok (.inr ⟨c.world, .CONTINUE, c.exec, none⟩) := by
  have beyond : ¬ c.curr < c.actions.len := by
    have := List.drop_eq_nil_iff.mp views.remaining
    rw [Slice.get_length views.sound.actions] at this
    omega
  rw [evaluateStep, if_neg beyond, views.continues]

theorem current_of_drop {actions : Slice} {heap : Heap (ActionAttr A)} {curr : Nat}
    (inside : actions.Inside heap) (remaining : (actions.get heap).drop curr = a :: rest) :
    curr < actions.len ∧ (actions.get heap)[curr]? = some a ∧
      (actions.get heap).drop (curr + 1) = rest := by
  have bound : curr < (actions.get heap).length := by
    by_contra not
    rw [List.drop_of_length_le (Nat.not_lt.mp not)] at remaining
    cases remaining
  rw [List.drop_eq_getElem_cons bound] at remaining
  obtain ⟨isAction, isRest⟩ := List.cons.inj remaining
  refine ⟨by rwa [Slice.get_length inside] at bound, ?_, isRest⟩
  rw [List.getElem?_eq_getElem bound, isAction]

theorem evaluateStep_view (views : c.Views b before (a :: rest)) (undisturbed : c.Undisturbed b) :
    ∃ world returned state, b.ran c.world.trace a.action = (world.trace, returned, state) ∧
      (c.exec + 1 = maxActions →
        evaluateStep b c = .ok (.inr ⟨world, .DROP, c.exec + 1, some exceedsText⟩)) ∧
      (c.exec + 1 ≠ maxActions → ¬ (state = .EVALUATE ∨ state = .CONTINUE) →
        evaluateStep b c = .ok (.inr ⟨world, state, c.exec + 1, none⟩)) ∧
      (c.exec + 1 ≠ maxActions → state = .EVALUATE ∨ state = .CONTINUE →
        ∃ d, evaluateStep b c = .ok (.inl d) ∧ d.Views b before (b.list returned ++ rest) ∧
          d.world.trace = world.trace) := by
  obtain ⟨more, isAction, isRest⟩ := current_of_drop views.sound.actions views.remaining
  obtain ⟨world, next, state, acted⟩ : ∃ w s t, b.act c.world a.action = (w, s, t) :=
    ⟨_, _, _, rfl⟩
  obtain ⟨returned, ran, wrote, held⟩ := b.act_ran views.intact acted
  have inside : c.actions.Inside world.heap := views.sound.actions.grown wrote.grown
  have intact := views.intact.wrote wrote
  have isNext := held.get_eq intact
  have nextIn := held.inside intact
  have pass := evaluateStep_acts more isAction acted
  refine ⟨world, returned, state, ran, ?_, ?_, ?_⟩
  · intro limit
    rw [pass, if_pos limit]
  · intro missed ends
    rw [not_or] at ends
    rw [pass, if_neg missed, if_neg ends.1, if_pos ends.2]
  · intro missed goesOn
    have same := (undisturbed a world next state more isAction acted goesOn).drop_eq wrote
      views.sound.actions more
    have continues : (if state = .EVALUATE then State.CONTINUE else state) = .CONTINUE := by
      rcases goesOn with rfl | rfl <;> rfl
    rw [continues, if_neg missed, if_neg (not_not.mpr rfl)] at pass
    split at pass
    · next some =>
      obtain ⟨world', actions, followed⟩ :
          ∃ w s, follow world c.actions (c.curr + 1) next = (w, s) := ⟨_, _, rfl⟩
      rw [followed] at pass
      obtain ⟨sameRan, samePacket, -, -⟩ := follow_spec nextIn followed
      have view := follow_view inside nextIn more followed
      rw [isNext, same, isRest] at view
      obtain ⟨⟨sound, -⟩, -⟩ := (evaluateStep_spec views.sound).whenever _ pass
      refine ⟨_, pass, ⟨sound, ?_, view, rfl⟩, ?_⟩
      · exact intact.wrote (follow_wrote held intact inside more followed)
      · rw [World.trace, sameRan, samePacket]
        rfl
    · next none =>
      have empty : b.list returned = [] := by
        rw [← isNext]
        exact List.eq_nil_of_length_eq_zero
          ((Slice.get_length nextIn).trans (not_not.mp none))
      obtain ⟨⟨sound, -⟩, -⟩ := (evaluateStep_spec views.sound).whenever _ pass
      refine ⟨_, pass, ⟨sound, intact, ?_, rfl⟩, rfl⟩
      rw [same, isRest, empty, List.nil_append]

theorem visitDeferred_eq {t t' : Trace σ A n} {returned : Returned A n} {state : State}
    (ran : b.ran t a.action = (t', returned, state)) (depth : Nat) :
    visitDeferred b depth a t =
      some (t', if state = .EVALUATE ∨ state = .CONTINUE then .inl (b.list returned) else .inr state) := by
  rw [visitDeferred, ran]
  dsimp only
  split <;> rfl

def Answers : Option State → State → Prop
  | none, state => state = .CONTINUE
  | some ending, state => ending = state ∧ state ≠ .CONTINUE

-- An evaluation ended as the recursion does unless it came to the limit, which the recursion then passes
-- as well.
structure Evaluated.Agrees (b : Behaviour σ A n) (before : Nat) (world : World σ A n)
    (actions : List (ActionAttr A)) (r : Evaluated σ A n) : Prop where
  ends : r.err = none → ∃ ending,
    Ends (visitDeferred b) actions world.trace (r.world.trace, ending) ∧ Answers ending r.state
  limit : r.err ≠ none → ∀ done, Ends (visitDeferred b) actions world.trace done →
    before + maxActions ≤ done.1.executed.length

theorem evaluate_agrees {actions : List (ActionAttr A)} (views : c.Views b before actions)
    (quiet : ∀ d, Machine.Reaches (evaluateStep b) c d → d.Undisturbed b) {fuel : Nat}
    {r : Evaluated σ A n} (ended : Machine.run (evaluateStep b) fuel c = .ok r) :
    r.Agrees b before c.world actions := by
  induction fuel generalizing c actions with
  | zero => cases ended
  | succ fuel ih =>
    cases actions with
    | nil =>
      rw [Machine.run_end (evaluateStep_done views)] at ended
      cases ended
      exact ⟨fun _ => ⟨none, ends_nil _, rfl⟩, fun failed => absurd rfl failed⟩
    | cons a rest =>
      obtain ⟨world, returned, state, ran, atLimit, atEnd, atMore⟩ :=
        evaluateStep_view views (quiet c .start)
      have visited := visitDeferred_eq ran
      by_cases limit : c.exec + 1 = maxActions
      · rw [Machine.run_end (atLimit limit)] at ended
        cases ended
        refine ⟨nofun, fun _ done ends => ?_⟩
        have more : c.world.executed.length + 1 ≤ done.1.executed.length := endsDeferred_cons ends
        rw [views.sound.counts] at more
        omega
      by_cases goesOn : state = .EVALUATE ∨ state = .CONTINUE
      · obtain ⟨d, goes, views', trace⟩ := atMore limit goesOn
        rw [Machine.run_pass goes] at ended
        rw [if_pos goesOn, ← trace] at visited
        have agrees := ih views' (fun e reaches => quiet e (.first goes reaches)) ended
        constructor
        · intro fine
          obtain ⟨ending, ends, answers⟩ := agrees.ends fine
          exact ⟨ending, ends_more visitDeferred_lasting (visited 0) ends, answers⟩
        · intro failed done ends
          exact agrees.limit failed done
            ((ends_cons_inl visitDeferred_lasting (visited 0)).mp ends)
      · rw [Machine.run_end (atEnd limit goesOn)] at ended
        rw [if_neg goesOn] at visited
        cases ended
        refine ⟨fun _ => ⟨some state, ends_exit (visited 0) rest, rfl, ?_⟩, ?_⟩
        · exact fun continues => goesOn (Or.inr continues)
        · exact fun failed => absurd rfl failed

theorem evaluatePacket_agrees {world : World σ A n} (intact : b.Intact world.heap)
    {evaluate : List (ActionAttr A)} {r : Evaluated σ A n}
    (quiet : ∀ d, Machine.Reaches (evaluateStep b) (evaluateStart world evaluate) d →
      d.Undisturbed b)
    (ended : evaluatePacket b world evaluate = .ok r) :
    r.Agrees b world.executed.length world evaluate := by
  have since := evaluateStart_since intact evaluate
  have views : (evaluateStart world evaluate).Views b world.executed.length evaluate :=
    ⟨since.sound, since.intact, Slice.get_alloc_new evaluate, rfl⟩
  have agrees := evaluate_agrees views quiet ended
  exact ⟨agrees.ends, agrees.limit⟩

end Evaluating

end Lemming.Action
