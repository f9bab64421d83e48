import Lemming.Action.Sharing

set_option autoImplicit false

namespace Lemming.Action

open Shared Shared.Worklist

variable {σ A : Type} {n : Nat} {b : Behaviour σ A n}

def Processing.Acts (b : Behaviour σ A n) (c : Processing σ A n) (world : World σ A n) (next : Slice)
    (state : State) : Prop :=
  ∃ a, c.curr < c.actions.len ∧ (c.actions.get c.world.heap)[c.curr]? = some a ∧
    a.onEvaluate = false ∧ b.act c.world a.action = (world, next, state)

-- If the run goes on after the next action, what this one and the deferred actions it asks for overwrite
-- is not pending, neither here nor in the evaluation.
structure Processing.Undisturbed (b : Behaviour σ A n) (c : Processing σ A n) : Prop where
  plain : ∀ world next, c.Acts b world next .CONTINUE →
    Spared c.world world (pending c.actions (c.curr + 1))
  deferred : ∀ world next, c.Acts b world next .EVALUATE →
    ∀ e, Machine.Reaches (evaluateStep b) (evaluateStart world c.evaluate) e → e.Undisturbed b
  evaluated : ∀ world next done, c.Acts b world next .EVALUATE →
    evaluatePacket b world c.evaluate = .ok done → done.err = none → done.state = .CONTINUE →
    Spared c.world done.world (pending c.actions (c.curr + 1))

structure Processing.Views (b : Behaviour σ A n) (c : Processing σ A n)
    (actions : List (ActionAttr A)) : Prop where
  sound : c.Sound b
  intact : b.Intact c.world.heap
  remaining : (c.actions.get c.world.heap).drop c.curr = actions
  continues : c.state = .CONTINUE

variable {c : Processing σ A n} {a : ActionAttr A} {rest : List (ActionAttr A)}

theorem processStep_done (views : c.Views b []) :
    processStep b c = .ok (.inr ⟨c.world, .CONTINUE, none⟩) := by
  have beyond : ¬ c.curr < c.actions.len := by
    have := List.drop_eq_nil_iff.mp views.remaining
    rw [Slice.get_length views.sound.actions] at this
    omega
  rw [processStep, if_neg beyond, views.continues]

theorem settleState_view {world : World σ A n} {next : Slice} {returned : Returned A n} {exec : Nat}
    (evaluate : List (ActionAttr A)) (intact : b.Intact world.heap)
    (inside : c.actions.Inside world.heap) (more : c.curr < c.actions.len)
    (isRest : (c.actions.get world.heap).drop (c.curr + 1) = rest)
    (held : b.Held world.heap next returned) (counts : world.executed.length = exec)
    (missed : exec ≠ maxActions) :
    ∃ d, settleState c world next evaluate exec .CONTINUE = .inl d ∧
      d.Views b (b.list returned ++ rest) ∧ d.world.trace = world.trace ∧ d.evaluate = evaluate := by
  have nextIn := held.inside intact
  unfold settleState
  rw [if_neg missed, if_neg (not_not.mpr rfl)]
  split
  · obtain ⟨world', actions, followed⟩ :
        ∃ w s, follow world c.actions (c.curr + 1) next = (w, s) := ⟨_, _, rfl⟩
    rw [followed]
    obtain ⟨sameRan, samePacket, grown, inside'⟩ := follow_spec nextIn followed
    have view := follow_view inside nextIn more followed
    rw [held.get_eq intact, isRest] at view
    refine ⟨_, rfl, ⟨⟨intact.sound.trans grown, inside', ?_, missed⟩, ?_, view, rfl⟩, ?_, rfl⟩
    · rw [sameRan, counts]
    · exact intact.wrote (follow_wrote held intact inside more followed)
    · rw [World.trace, sameRan, samePacket]
      rfl
  · next none =>
    have empty : b.list returned = [] := by
      rw [← held.get_eq intact]
      exact List.eq_nil_of_length_eq_zero ((Slice.get_length nextIn).trans (not_not.mp none))
    refine ⟨_, rfl, ⟨⟨intact.sound, inside, counts, missed⟩, intact, ?_, rfl⟩, rfl, rfl⟩
    rw [empty, List.nil_append]
    exact isRest

inductive Corresponds (b : Behaviour σ A n) (c : Processing σ A n) (a : ActionAttr A)
    (rest : List (ActionAttr A)) : Processing σ A n ⊕ Processed σ A n → Prop where
  | more {d : Processing σ A n} {depth : Nat} {more : List (ActionAttr A)}
      (visited : visit b depth a (c.world.trace, c.evaluate) =
        some ((d.world.trace, d.evaluate), .inl more))
      (views : d.Views b (more ++ rest)) : Corresponds b c a rest (.inl d)
  | ends {r : Processed σ A n} {depth : Nat} {deferred : List (ActionAttr A)}
      (visited : visit b depth a (c.world.trace, c.evaluate) =
        some ((r.world.trace, deferred), .inr r.state))
      (fine : r.err = none) : Corresponds b c a rest (.inr r)
  -- Past the limit the two need not agree any more.
  | limit {next : Processing σ A n ⊕ Processed σ A n} (ran : maxActions ≤ ranBy next)
      (passed : ∀ depth w result, visit b depth a (c.world.trace, c.evaluate) = some (w, result) →
        maxActions ≤ w.1.executed.length) : Corresponds b c a rest next

theorem corresponds_tagged (views : c.Views b (a :: rest)) (tagged : a.onEvaluate = true) :
    Corresponds b c a rest (.inl { c with evaluate := c.evaluate ++ [a], curr := c.curr + 1 }) := by
  obtain ⟨-, -, isRest⟩ := current_of_drop views.sound.actions views.remaining
  have visited : visit b 0 a (c.world.trace, c.evaluate) =
      some ((c.world.trace, c.evaluate ++ [a]), .inl []) := by
    rw [visit, if_pos tagged]
  apply Corresponds.more visited
  exact ⟨⟨views.sound.world, views.sound.actions, views.sound.counts, views.sound.missed⟩,
    views.intact, isRest, views.continues⟩

section Untagged

variable {t : Trace σ A n} {returned : Returned A n} {state : State}

theorem visit_untagged (untagged : a.onEvaluate = false)
    (ran : b.ran c.world.trace a.action = (t, returned, state)) (missing : state ≠ .EVALUATE)
    (depth : Nat) : visit b depth a (c.world.trace, c.evaluate) =
      some ((t, c.evaluate), if state = .CONTINUE then .inl (b.list returned) else .inr state) := by
  rw [visit, untagged, ran]
  dsimp only
  rw [if_neg Bool.false_ne_true, if_neg missing]
  split <;> rfl

theorem visit_evaluates (untagged : a.onEvaluate = false)
    (ran : b.ran c.world.trace a.action = (t, returned, .EVALUATE)) (depth : Nat) :
    visit b depth a (c.world.trace, c.evaluate) =
      match inOrder (recurse (visitDeferred b) depth) c.evaluate t with
      | none => none
      | some (t, some state) => some ((t, []), .inr state)
      | some (t, none) => some ((t, []), .inl (b.list returned)) := by
  rw [visit, untagged, ran]
  rfl

theorem visit_evaluates_ends (untagged : a.onEvaluate = false)
    (ran : b.ran c.world.trace a.action = (t, returned, .EVALUATE)) {depth : Nat}
    {w : Trace σ A n × List (ActionAttr A)} {result : List (ActionAttr A) ⊕ State}
    (visited : visit b depth a (c.world.trace, c.evaluate) = some (w, result)) :
    ∃ ending, Ends (visitDeferred b) c.evaluate t (w.1, ending) := by
  rw [visit_evaluates untagged ran] at visited
  split at visited
  · cases visited
  all_goals
    next recursed =>
    cases visited
    exact ⟨_, (ends_iff visitDeferred_lasting _ _ _).mpr ⟨depth, recursed⟩⟩

end Untagged

section Acting

variable {world : World σ A n} {next : Slice} {state : State}

theorem corresponds_plain (views : c.Views b (a :: rest)) (untagged : a.onEvaluate = false)
    (acted : b.act c.world a.action = (world, next, state)) (missing : state ≠ .EVALUATE)
    (undisturbed : c.Undisturbed b) :
    Corresponds b c a rest (settleState c world next c.evaluate (c.exec + 1) state) := by
  obtain ⟨more, isAction, isRest⟩ := current_of_drop views.sound.actions views.remaining
  obtain ⟨returned, ran, wrote, held⟩ := b.act_ran views.intact acted
  have visited := visit_untagged (c := c) untagged ran missing
  have inside := views.sound.actions.grown wrote.grown
  have counts : world.executed.length = c.exec + 1 := by
    rw [← views.sound.counts]
    exact (b.act_spec views.intact.sound acted).1
  have intact := views.intact.wrote wrote
  by_cases limit : c.exec + 1 = maxActions
  · apply Corresponds.limit
    · rw [settleState, if_pos limit]
      exact (counts.trans limit).ge
    · intro depth w result isVisit
      cases (visited depth).symm.trans isVisit
      exact (counts.trans limit).ge
  by_cases goesOn : state = .CONTINUE
  · subst goesOn
    have pendingSame : (c.actions.get world.heap).drop (c.curr + 1) = rest := by
      have spared := undisturbed.plain world next ⟨a, more, isAction, untagged, acted⟩
      rw [spared.drop_eq wrote views.sound.actions more, isRest]
    obtain ⟨d, isNext, views', trace, evaluate⟩ := settleState_view c.evaluate intact
      inside more pendingSame held counts limit
    have isVisit : visit b 0 a (c.world.trace, c.evaluate) =
        some ((d.world.trace, d.evaluate), .inl (b.list returned)) := by
      rw [visited 0, if_pos rfl, trace, evaluate]
    rw [isNext]
    exact .more isVisit views'
  · have isVisit := visited 0
    rw [if_neg goesOn] at isVisit
    rw [settleState, if_neg limit, if_pos goesOn]
    exact .ends isVisit rfl

variable {done : Evaluated σ A n}

theorem corresponds_evaluated (views : c.Views b (a :: rest)) (untagged : a.onEvaluate = false)
    (acted : b.act c.world a.action = (world, next, .EVALUATE))
    (evaluated : evaluatePacket b world c.evaluate = .ok done) (fine : done.err = none)
    (undisturbed : c.Undisturbed b) :
    Corresponds b c a rest
      (settleState c done.world next [] (c.exec + 1 + done.exec) done.state) := by
  obtain ⟨more, isAction, isRest⟩ := current_of_drop views.sound.actions views.remaining
  have acts : c.Acts b world next .EVALUATE := ⟨a, more, isAction, untagged, acted⟩
  obtain ⟨returned, ran, wrote, held⟩ := b.act_ran views.intact acted
  obtain ⟨counted, grown, nextIn⟩ := b.act_spec views.intact.sound acted
  have intact := views.intact.wrote wrote
  have agrees := evaluatePacket_agrees intact (undisturbed.deferred world next acts) evaluated
  obtain ⟨doneSound, grown'⟩ := (evaluatePacket_spec intact.sound c.evaluate).whenever _ evaluated
  have wrote' := evaluatePacket_wrote intact c.evaluate _ evaluated
  obtain ⟨ending, ends, answers⟩ := agrees.ends fine
  have counts : done.world.executed.length = c.exec + 1 + done.exec := by
    rw [doneSound.counts, counted, views.sound.counts]
  have inside := (views.sound.actions.grown grown).grown grown'
  have visited := visit_evaluates (c := c) untagged ran
  by_cases limit : maxActions ≤ c.exec + 1 + done.exec
  · apply Corresponds.limit
    · rw [(settleState_spec [] done.state doneSound.world inside (nextIn.grown grown') counts).1]
      exact limit
    · intro depth w result isVisit
      obtain ⟨ending', ends'⟩ := visit_evaluates_ends untagged ran isVisit
      have same := congrArg (fun r => r.1.executed.length) (ends.unique visitDeferred_lasting ends')
      exact (limit.trans counts.ge).trans same.le
  obtain ⟨depth, recursed⟩ := (ends_iff visitDeferred_lasting _ _ _).mp ends
  have isVisit := visited depth
  rw [recursed] at isVisit
  cases ending with
  | none =>
    have spared := undisturbed.evaluated world next done acts evaluated fine answers
    have pendingSame : (c.actions.get done.world.heap).drop (c.curr + 1) = rest := by
      rw [spared.drop_eq (wrote.trans wrote') views.sound.actions more, isRest]
    obtain ⟨d, isNext, views', trace, evaluate⟩ := settleState_view [] (intact.wrote wrote') inside
      more pendingSame (held.wrote wrote') counts (by omega)
    -- The deferred list is empty now on both sides.
    rw [← trace, ← evaluate] at isVisit
    rw [answers, isNext]
    exact .more isVisit views'
  | some state =>
    obtain ⟨rfl, notContinue⟩ := answers
    rw [settleState, if_neg (by omega), if_pos notContinue]
    exact .ends isVisit rfl

theorem corresponds_failed (views : c.Views b (a :: rest)) (untagged : a.onEvaluate = false)
    (acted : b.act c.world a.action = (world, next, .EVALUATE))
    (evaluated : evaluatePacket b world c.evaluate = .ok done) (failed : done.err ≠ none)
    (undisturbed : c.Undisturbed b) :
    Corresponds b c a rest (.inr ⟨done.world, .DROP, done.err⟩) := by
  obtain ⟨more, isAction, -⟩ := current_of_drop views.sound.actions views.remaining
  obtain ⟨returned, ran, wrote, -⟩ := b.act_ran views.intact acted
  have intact := views.intact.wrote wrote
  have quiet := undisturbed.deferred world next ⟨a, more, isAction, untagged, acted⟩
  have agrees := evaluatePacket_agrees intact quiet evaluated
  obtain ⟨doneSound, -⟩ := (evaluatePacket_spec intact.sound c.evaluate).whenever _ evaluated
  apply Corresponds.limit
  · have limit := doneSound.err (Option.isSome_iff_ne_none.mpr failed)
    have counts := doneSound.counts
    dsimp only [ranBy]
    omega
  · intro depth w result isVisit
    obtain ⟨ending, ends⟩ := visit_evaluates_ends untagged ran isVisit
    exact (Nat.le_add_left _ _).trans (agrees.limit failed _ ends)

end Acting

theorem processStep_corresponds (views : c.Views b (a :: rest)) (undisturbed : c.Undisturbed b) :
    ∃ next, processStep b c = .ok next ∧ Corresponds b c a rest next := by
  obtain ⟨more, isAction, -⟩ := current_of_drop views.sound.actions views.remaining
  unfold processStep
  rw [if_pos more, isAction]
  dsimp only
  split
  · next tagged => exact ⟨_, rfl, corresponds_tagged views tagged⟩
  next untagged =>
  rw [Bool.not_eq_true] at untagged
  obtain ⟨world, next, state, acted⟩ : ∃ w s t, b.act c.world a.action = (w, s, t) :=
    ⟨_, _, _, rfl⟩
  rw [acted]
  dsimp only
  split
  · next evaluates =>
    subst evaluates
    have sound := views.intact.sound.trans (b.act_spec views.intact.sound acted).2.1
    obtain ⟨done, evaluated, -⟩ := evaluatePacket_spec sound c.evaluate
    rw [evaluated]
    dsimp only [Outcome.ok_bind]
    split
    · next failed =>
      exact ⟨_, rfl, corresponds_failed views untagged acted evaluated
        (Option.isSome_iff_ne_none.mp failed) undisturbed⟩
    · next fine =>
      exact ⟨_, rfl, corresponds_evaluated views untagged acted evaluated
        (Option.not_isSome_iff_eq_none.mp fine) undisturbed⟩
  · next missing => exact ⟨_, rfl, corresponds_plain views untagged acted missing undisturbed⟩

section Running

variable {actions : List (ActionAttr A)} {fuel : Nat}

theorem ends_of_run (views : c.Views b actions)
    (quiet : ∀ d, Machine.Reaches (processStep b) c d → d.Undisturbed b) {r : Processed σ A n}
    (ended : Machine.run (processStep b) fuel c = .ok r)
    (short : r.world.executed.length < maxActions) :
    r.err = none ∧ ∃ deferred ending, r.state = ending.getD .CONTINUE ∧
      Ends (visit b) actions (c.world.trace, c.evaluate) ((r.world.trace, deferred), ending) := by
  -- Each pass is one visit, so the induction is on the passes and the list at hand changes.
  induction fuel generalizing c actions with
  | zero => cases ended
  | succ fuel ih =>
    cases actions with
    | nil =>
      rw [Machine.run_end (processStep_done views)] at ended
      cases ended
      exact ⟨rfl, _, none, rfl, ends_nil _⟩
    | cons a rest =>
      obtain ⟨next, goes, corresponds⟩ := processStep_corresponds views (quiet c .start)
      cases corresponds with
      | @more d depth more visited views' =>
        rw [Machine.run_pass goes] at ended
        obtain ⟨fine, deferred, ending, isState, ends⟩ :=
          ih views' (fun e reaches => quiet e (.first goes reaches)) ended
        exact ⟨fine, deferred, ending, isState, ends_more visit_lasting visited ends⟩
      | ends visited fine =>
        rw [Machine.run_end goes] at ended
        cases ended
        exact ⟨fine, _, some r.state, rfl, ends_exit visited rest⟩
      | limit ran passed =>
        cases next with
        | inl d =>
          have passes := (processStep_spec views.sound).whenever _ goes
          rw [Machine.run_pass goes] at ended
          have := run_ran (passes.goes d rfl).1 ran fuel r ended
          omega
        | inr r' =>
          rw [Machine.run_end goes] at ended
          cases ended
          exact absurd short (Nat.not_lt.mpr ran)

theorem run_of_iterate (views : c.Views b actions)
    (quiet : ∀ d, Machine.Reaches (processStep b) c d → d.Undisturbed b)
    {w : Trace σ A n × List (ActionAttr A)} {ending : Option State}
    (ended : iterate (visit b) fuel actions (c.world.trace, c.evaluate) = some (w, ending))
    (short : w.1.executed.length < maxActions) :
    ∃ passes r, Machine.run (processStep b) passes c = .ok r ∧ r.world.trace = w.1 ∧
      r.state = ending.getD .CONTINUE ∧ r.err = none := by
  -- Here the visits are given, and each of them is one pass.
  induction fuel generalizing c actions with
  | zero => cases ended
  | succ fuel ih =>
    cases actions with
    | nil =>
      cases ended
      exact ⟨1, _, Machine.run_end (processStep_done views) 0, rfl, rfl, rfl⟩
    | cons a rest =>
      obtain ⟨next, goes, corresponds⟩ := processStep_corresponds views (quiet c .start)
      rw [iterate] at ended
      cases visited : visit b fuel a (c.world.trace, c.evaluate) with
      | none =>
        rw [visited] at ended
        cases ended
      | some visitResult =>
        rw [visited] at ended
        cases corresponds with
        | @more d depth more visited' views' =>
          cases visit_lasting.unique visited visited'
          obtain ⟨passes, r, ran, matched⟩ :=
            ih views' (fun e reaches => quiet e (.first goes reaches)) ended
          exact ⟨passes + 1, r, by rw [Machine.run_pass goes, ran], matched⟩
        | ends visited' fine =>
          cases visit_lasting.unique visited visited'
          cases ended
          exact ⟨1, _, Machine.run_end goes 0, rfl, rfl, fine⟩
        | limit ran passed =>
          obtain ⟨w', result⟩ := visitResult
          have beyond := passed fuel w' result visited
          cases result with
          | inl more =>
            have later : w'.1.executed.length ≤ w.1.executed.length := ends_mono ⟨fuel, ended⟩
            omega
          | inr e =>
            cases ended
            exact absurd short (Nat.not_lt.mpr beyond)

theorem processStart_views (b : Behaviour σ A n) (packet : σ) (actions : Returned A n) :
    (processStart b packet actions).Views b (b.list actions) ∧
      (processStart b packet actions).world.trace = ⟨packet, []⟩ := by
  have sound := processStart_sound b packet actions
  cases actions with
  | kept i => exact ⟨⟨sound, b.heap_intact, b.heap_intact.lists i, rfl⟩, rfl⟩
  | new actions =>
    refine ⟨⟨sound, ?_, Slice.get_alloc_new actions, rfl⟩, rfl⟩
    have wrote : World.Wrote b ⟨packet, b.heap, [], []⟩ (processStart b packet (.new actions)).world :=
      ⟨[], rfl, nofun, .alloc _ _ _⟩
    exact b.heap_intact.wrote wrote

theorem processPacket_reference (b : Behaviour σ A n) (packet : σ) (actions : Returned A n)
    (quiet : ∀ c, Machine.Reaches (processStep b) (processStart b packet actions) c →
      c.Undisturbed b) (t : Trace σ A n) (short : t.executed.length < maxActions) (state : State) :
    ((∃ fuel r, processPacket b fuel packet actions = .ok r ∧ r.world.trace = t ∧ r.state = state ∧
        r.err = none) ↔
      ∃ depth, reference b depth packet actions = some (t, state)) ∧
    ∀ fuel r, processPacket b fuel packet actions = .ok r → r.world.trace = t → r.err = none := by
  obtain ⟨views, trace⟩ := processStart_views b packet actions
  rw [reference_iff]
  refine ⟨⟨?_, ?_⟩, ?_⟩
  · intro ⟨fuel, r, ended, isTrace, isState, _⟩
    subst isTrace
    obtain ⟨-, deferred, ending, answers, ends⟩ := ends_of_run views quiet ended short
    rw [trace] at ends
    exact ⟨deferred, ending, isState.symm.trans answers, ends⟩
  · intro ⟨deferred, ending, answers, fuel, ended⟩
    rw [← trace] at ended
    obtain ⟨passes, r, ran, isTrace, isState, fine⟩ := run_of_iterate views quiet ended short
    exact ⟨passes, r, ran, isTrace, isState.trans answers.symm, fine⟩
  · intro fuel r ended isTrace
    subst isTrace
    exact (ends_of_run views quiet ended short).1

end Running

section Full

theorem settleState_wrote {world : World σ A n} {next : Slice} {returned : Returned A n}
    (evaluate : List (ActionAttr A)) (exec : Nat) (state : State) (intact : b.Intact world.heap)
    (inside : c.actions.Inside world.heap) (more : c.curr < c.actions.len)
    (held : b.Held world.heap next returned) :
    world.Wrote b
      ((settleState c world next evaluate exec state).elim Processing.world Processed.world) := by
  unfold settleState
  split
  · exact .refl b world
  split
  · exact .refl b world
  split
  · exact follow_wrote held intact inside more rfl
  · exact .refl b world

theorem processStep_wrote (sound : c.Sound b) (intact : b.Intact c.world.heap) :
    (processStep b c).Whenever fun next =>
      c.world.Wrote b (next.elim Processing.world Processed.world) := by
  unfold processStep
  split
  · next more =>
    obtain ⟨a, isAction⟩ := Slice.get_cell sound.actions more
    obtain ⟨world, next, state, acted⟩ : ∃ w s t, b.act c.world a.action = (w, s, t) :=
      ⟨_, _, _, rfl⟩
    obtain ⟨returned, -, wrote, held⟩ := b.act_ran intact acted
    rw [isAction]
    dsimp only
    rw [acted]
    dsimp only
    split
    · exact .pure (.refl b _)
    split
    · refine (evaluatePacket_wrote (intact.wrote wrote) c.evaluate).bind fun done wrote' => ?_
      split
      · exact .pure (wrote.trans wrote')
      · exact .pure ((wrote.trans wrote').trans (settleState_wrote [] _ _
          ((intact.wrote wrote).wrote wrote') (sound.actions.grown (wrote.trans wrote').grown) more
          (held.wrote wrote')))
    · exact .pure (wrote.trans (settleState_wrote c.evaluate _ _ (intact.wrote wrote)
        (sound.actions.grown wrote.grown) more held))
  · exact .pure (.refl b _)

theorem reaches_intact {packet : σ} {actions : Returned A n}
    (reaches : Machine.Reaches (processStep b) (processStart b packet actions) c) :
    c.Sound b ∧ b.Intact c.world.heap := by
  have start := (processStart_views b packet actions).1
  apply reaches.invariant (fun c => c.Sound b ∧ b.Intact c.world.heap) ⟨start.sound, start.intact⟩
  intro c d ⟨sound, intact⟩ goes
  exact ⟨((processStep_spec sound).whenever _ goes |>.goes d rfl).1,
    intact.wrote (processStep_wrote sound intact _ goes)⟩

-- The arrays of the stored lists are as long as the lists.
def Behaviour.Full (b : Behaviour σ A n) : Prop := ∀ i, (b.kept i).cells.length = (b.kept i).len

theorem spared_of_full {world world' : World σ A n} {actions : Slice} {curr : Nat} (full : b.Full)
    (sound : world.Sound b) (inside : actions.Inside world.heap) (more : curr ≤ actions.len)
    (wrote : world.Wrote b world') : Spared world world' (pending actions curr) := by
  obtain ⟨since, isWritten, behind, -⟩ := wrote
  rw [Spared, isWritten, List.drop_left]
  refine Or.inr fun s mem => ?_
  obtain ⟨i, covers⟩ := behind s mem
  apply covers.apart
  by_cases same : actions.array = i
  · have fits := inside.2
    rw [same, sound.2 i (b.stored_inside i).1, b.array_heap, full i] at fits
    refine Or.inr (Or.inr ?_)
    simp only [pending, Slice.sub, Behaviour.spare]
    omega
  · exact Or.inl fun eq => same eq.symm

theorem undisturbed_of_full (full : b.Full) {packet : σ} {actions : Returned A n}
    (reaches : Machine.Reaches (processStep b) (processStart b packet actions) c) :
    c.Undisturbed b := by
  obtain ⟨sound, intact⟩ := reaches_intact reaches
  constructor
  · intro world next ⟨a, more, _, _, acted⟩
    obtain ⟨-, -, wrote, -⟩ := b.act_ran intact acted
    exact spared_of_full full sound.world sound.actions more wrote
  · intro world next ⟨a, _, _, _, acted⟩ e reaches
    obtain ⟨-, -, wrote, -⟩ := b.act_ran intact acted
    have since := reaches.invariant (fun e => e.Since b world)
      (evaluateStart_since (intact.wrote wrote) c.evaluate) (fun _ _ since goes => since.pass goes)
    intro a' world' next' state' more _ acted' _
    obtain ⟨-, -, wrote', -⟩ := b.act_ran since.intact acted'
    exact spared_of_full full since.sound.world since.sound.actions more wrote'
  · intro world next done ⟨a, more, _, _, acted⟩ evaluated _ _
    obtain ⟨-, -, wrote, -⟩ := b.act_ran intact acted
    have wrote' := evaluatePacket_wrote (intact.wrote wrote) c.evaluate _ evaluated
    exact spared_of_full full sound.world sound.actions more (wrote.trans wrote')

end Full

inductive Reuse where
  | lookup
  | evaluate
  | pass
  | deferred
  | output
  | mirror
deriving DecidableEq

def reuseEntry : List (ActionAttr Reuse) := [⟨false, .evaluate⟩, ⟨false, .pass⟩, ⟨false, .pass⟩]

theorem reuseEntry_fits (spare : List (ActionAttr Reuse)) : 3 ≤ (reuseEntry ++ spare).length := by
  rw [List.length_append]
  exact Nat.le_add_right 3 spare.length

-- A table with one entry, whose array has `spare` behind the three actions of the entry.
def reuse (spare : List (ActionAttr Reuse)) : Behaviour Unit Reuse 1 where
  kept := fun _ => ⟨reuseEntry ++ spare, 3, reuseEntry_fits spare⟩
  process := fun
    | .lookup, packet => (packet, .kept ⟨0, Nat.zero_lt_one⟩, .CONTINUE)
    | .evaluate, packet => (packet, .new [], .EVALUATE)
    | .output, packet => (packet, .new [], .OUTPUT)
    | _, packet => (packet, .new [], .CONTINUE)
  writes := fun _ _ _ => []

def reuseList : List (ActionAttr Reuse) :=
  [⟨true, .lookup⟩, ⟨true, .deferred⟩, ⟨false, .lookup⟩, ⟨false, .output⟩]

def replicaList : List (ActionAttr Reuse) := [⟨false, .lookup⟩, ⟨false, .pass⟩, ⟨false, .pass⟩]

-- The entry has five actions, for which `append` made an array of eight. `mirror` has the replica go
-- through `replicaList`, which puts two actions behind the entry.
def mirrored : Behaviour Unit Reuse 1 where
  kept := fun _ => ⟨List.replicate 8 ⟨false, .pass⟩, 5, by decide⟩
  process := (reuse []).process
  writes := fun a _ _ => if a = .mirror then [(⟨0, Nat.zero_lt_one⟩, replicaList.drop 1)] else []

def mirroredList : List (ActionAttr Reuse) :=
  [⟨false, .lookup⟩, ⟨false, .mirror⟩, ⟨false, .output⟩]

-- The lookup puts `output` into the free cell behind the entry. The deferred lookup finds the same
-- entry and puts `deferred` there, so that `output` is never run. With `mirror` the run of the replica
-- overwrites `output`.
theorem processPacket_loses_action :
    ((reference (reuse [⟨false, .pass⟩]) 5 () (.new reuseList)).map
          (fun done => (done.1.executed.length, done.2)) = some (10, .OUTPUT) ∧
        ∃ r, processPacket (reuse [⟨false, .pass⟩]) 8 () (.new reuseList) = .ok r ∧
          r.state = .CONTINUE ∧ r.err = none ∧ ∀ entry ∈ r.world.executed, entry.1 ≠ .output) ∧
      ((reference mirrored 5 () (.new mirroredList)).map
          (fun done => (done.1.executed.length, done.2)) = some (8, .OUTPUT) ∧
        (∃ r, processPacket mirrored 10 () (.new replicaList) = .ok r ∧
          r.world.written = [⟨0, 5, 2⟩]) ∧
        ∃ r, processPacket mirrored 10 () (.new mirroredList) = .ok r ∧ r.state = .CONTINUE ∧
          r.err = none ∧ ∀ entry ∈ r.world.executed, entry.1 ≠ .output) :=
  ⟨⟨by decide +kernel, _, rfl, rfl, rfl, by decide⟩, by decide +kernel, ⟨_, rfl, rfl⟩, _, rfl, rfl,
    rfl, by decide⟩

theorem processPacket_reference_output :
    ∃ fuel r, processPacket (reuse []) fuel () (.new reuseList) = .ok r ∧
      r.world.executed.length = 10 ∧ r.state = .OUTPUT ∧ r.err = none := by
  obtain ⟨t, isReference, length⟩ : ∃ t, reference (reuse []) 5 () (.new reuseList) =
      some (t, .OUTPUT) ∧ t.executed.length = 10 := ⟨_, rfl, rfl⟩
  have short : t.executed.length < maxActions := by
    rw [length]
    decide
  have full : (reuse []).Full := fun _ => rfl
  obtain ⟨fuel, r, ended, isTrace, isState, fine⟩ := (processPacket_reference (reuse []) ()
    (.new reuseList) (fun c reaches => undisturbed_of_full full reaches) t short .OUTPUT).1.mpr
      ⟨5, isReference⟩
  refine ⟨fuel, r, ended, ?_, isState, fine⟩
  rw [← length, ← isTrace]
  rfl

end Lemming.Action
