import Lemming.Action.Process

set_option autoImplicit false

namespace Lemming.Action

open Shared

variable {σ A : Type} {n : Nat} {b : Behaviour σ A n}

def World.Sound (b : Behaviour σ A n) (world : World σ A n) : Prop := b.heap.Grown world.heap

theorem Behaviour.array_heap (b : Behaviour σ A n) (i : Fin n) :
    b.heap.array i = (b.kept i).cells := by
  simp [heap, Heap.array, List.getD_eq_getElem?_getD]

theorem Behaviour.stored_inside (b : Behaviour σ A n) (i : Fin n) : (b.stored i).Inside b.heap := by
  constructor
  · simp [heap, stored]
  · rw [stored, b.array_heap, Nat.zero_add]
    exact (b.kept i).fits

def Behaviour.spare (b : Behaviour σ A n) (i : Fin n) : Slice :=
  ⟨i, (b.kept i).len, (b.kept i).cells.length - (b.kept i).len⟩

-- All that was overwritten between the two are free cells behind stored lists.
def World.Wrote (b : Behaviour σ A n) (world world' : World σ A n) : Prop :=
  ∃ since, world'.written = world.written ++ since ∧
    (∀ s ∈ since, ∃ i, (b.spare i).Covers s) ∧ world.heap.Only since world'.heap

namespace World.Wrote

variable {world world' world'' : World σ A n}

theorem refl (b : Behaviour σ A n) (world : World σ A n) : world.Wrote b world :=
  ⟨[], (List.append_nil _).symm, nofun, .refl _ _⟩

theorem trans (first : world.Wrote b world') (second : world'.Wrote b world'') :
    world.Wrote b world'' := by
  obtain ⟨since, isWritten, behind, only⟩ := first
  obtain ⟨since', isWritten', behind', only'⟩ := second
  refine ⟨since ++ since', ?_, ?_, ?_⟩
  · rw [isWritten', isWritten, List.append_assoc]
  · intro s mem
    exact (List.mem_append.mp mem).elim (behind s) (behind' s)
  · exact (only.mono (List.subset_append_left _ _)).trans (only'.mono (List.subset_append_right _ _))

theorem grown (wrote : world.Wrote b world') : world.heap.Grown world'.heap := by
  obtain ⟨_, _, _, only⟩ := wrote
  exact only.1

end World.Wrote

section Acting

variable {world world' : World σ A n} {next : Slice} {state : State} {a : A}

theorem World.append_stored (sound : world.Sound b) (i : Fin n) (new : List (ActionAttr A)) :
    world.Wrote b (world.append (b.stored i) new).1 := by
  have inside := (b.stored_inside i).grown sound
  refine ⟨_, rfl, ?_, .append_inPlace inside.1⟩
  intro s mem
  unfold Slice.inPlace at mem
  split at mem
  · next room =>
    cases List.mem_singleton.mp mem
    have size : (world.heap.array i).length = (b.kept i).cells.length := by
      rw [sound.2 i (b.stored_inside i).1, b.array_heap]
    have fits : (b.stored i).off + (b.stored i).len + new.length ≤ (b.kept i).cells.length :=
      room.trans_eq size
    refine ⟨i, rfl, ?_, ?_⟩
    all_goals
      simp only [Behaviour.stored, Behaviour.spare, Slice.sub] at fits ⊢
      omega
  · cases mem

theorem Behaviour.write_spec (sound : world.Sound b)
    (writes : List (Fin n × List (ActionAttr A))) :
    (b.write world writes).executed = world.executed ∧ world.Wrote b (b.write world writes) := by
  unfold write
  induction writes generalizing world with
  | nil => exact ⟨rfl, .refl b world⟩
  | cons new rest ih =>
    have wrote := World.append_stored sound new.1 new.2
    obtain ⟨same, wrote'⟩ := ih (sound.trans wrote.grown)
    exact ⟨same, wrote.trans wrote'⟩

theorem Behaviour.hold_spec (sound : world.Sound b) {returned : Returned A n}
    (held : b.hold world returned = (world', next)) :
    world'.executed = world.executed ∧ world'.packet = world.packet ∧
      world.Wrote b world' ∧ next.Inside world'.heap := by
  cases returned with
  | kept i =>
    cases held
    exact ⟨rfl, rfl, .refl b _, (b.stored_inside i).grown sound⟩
  | new actions =>
    cases held
    refine ⟨rfl, rfl, ⟨[], (List.append_nil _).symm, nofun, .alloc _ _ _⟩, Slice.alloc_inside _ _⟩

theorem Behaviour.act_eq (sound : world.Sound b) (acted : b.act world a = (world', next, state)) :
    ∃ packet returned heap written, b.process a world.packet = (packet, returned, state) ∧
      World.Wrote b world ⟨packet, heap, world.executed ++ [(a, returned)], written⟩ ∧
      b.hold ⟨packet, heap, world.executed ++ [(a, returned)], written⟩ returned = (world', next) := by
  obtain ⟨same, wrote⟩ := b.write_spec sound (b.writes a world.packet world.heap)
  unfold act at acted
  cases acted
  refine ⟨_, _, _, _, rfl, wrote, ?_⟩
  rw [← same]
  rfl

theorem Behaviour.act_spec (sound : world.Sound b)
    (acted : b.act world a = (world', next, state)) :
    world'.executed.length = world.executed.length + 1 ∧
      world.heap.Grown world'.heap ∧ next.Inside world'.heap := by
  obtain ⟨packet, returned, heap, written, -, wrote, held⟩ := b.act_eq sound acted
  obtain ⟨executed, -, wrote', inside⟩ := b.hold_spec (sound.trans wrote.grown) held
  refine ⟨?_, wrote.grown.trans wrote'.grown, inside⟩
  rw [executed, List.length_append, List.length_singleton]

theorem follow_spec {actions actions' : Slice} {curr : Nat} (nextIn : next.Inside world.heap)
    (followed : follow world actions curr next = (world', actions')) :
    world'.executed = world.executed ∧ world'.packet = world.packet ∧
      world.heap.Grown world'.heap ∧ actions'.Inside world'.heap := by
  unfold follow at followed
  split at followed
  · cases followed
    exact ⟨rfl, rfl, .refl _, nextIn⟩
  · cases followed
    exact ⟨rfl, rfl, (Heap.Only.append_inPlace nextIn.1).1, Slice.append_inside nextIn⟩

end Acting

section Evaluating

structure Evaluation.Sound (b : Behaviour σ A n) (before : Nat) (c : Evaluation σ A n) : Prop where
  world : c.world.Sound b
  actions : c.actions.Inside c.world.heap
  counts : c.world.executed.length = before + c.exec
  below : c.exec < maxActions

structure Evaluated.Sound (b : Behaviour σ A n) (before : Nat) (r : Evaluated σ A n) : Prop where
  world : r.world.Sound b
  counts : r.world.executed.length = before + r.exec
  limit : r.exec ≤ maxActions
  err : r.err.isSome → r.exec = maxActions

variable {before : Nat} {c : Evaluation σ A n}

theorem evaluateStep_spec (sound : c.Sound b before) :
    (evaluateStep b c).Yields fun
      | .inl d => (d.Sound b before ∧ c.world.heap.Grown d.world.heap) ∧ d.exec = c.exec + 1
      | .inr r => r.Sound b before ∧ c.world.heap.Grown r.world.heap := by
  unfold evaluateStep
  split
  · next more =>
    obtain ⟨a, isAction⟩ := Slice.get_cell sound.actions more
    obtain ⟨world, next, state, acted⟩ : ∃ w s t, b.act c.world a.action = (w, s, t) :=
      ⟨_, _, _, rfl⟩
    obtain ⟨ran, grown, inside⟩ := b.act_spec sound.world acted
    have counts : world.executed.length = before + (c.exec + 1) := by
      rw [ran, sound.counts, Nat.add_assoc]
    have below := sound.below
    have sound' : world.Sound b := sound.world.trans grown
    rw [isAction]
    dsimp only
    rw [acted]
    dsimp only
    generalize (if state = .EVALUATE then State.CONTINUE else state) = state
    split
    · next limit => exact .pure ⟨⟨sound', counts, limit.le, fun _ => limit⟩, grown⟩
    next limit =>
    have below' : c.exec + 1 < maxActions := by omega
    split
    · exact .pure ⟨⟨sound', counts, below, nofun⟩, grown⟩
    split
    · obtain ⟨world', actions, followed⟩ : ∃ w s, follow world c.actions (c.curr + 1) next = (w, s) :=
        ⟨_, _, rfl⟩
      obtain ⟨same, -, grown', inside'⟩ := follow_spec inside followed
      rw [followed]
      refine .pure ⟨⟨⟨sound'.trans grown', inside', by rw [same, counts], below'⟩, ?_⟩, rfl⟩
      exact grown.trans grown'
    · exact .pure ⟨⟨⟨sound', sound.actions.grown grown, counts, below'⟩, grown⟩, rfl⟩
  · exact .pure ⟨⟨sound.world, sound.counts, sound.below.le, nofun⟩, .refl _⟩

theorem evaluatePacket_spec {world : World σ A n} (sound : world.Sound b)
    (evaluate : List (ActionAttr A)) :
    (evaluatePacket b world evaluate).Yields fun r =>
      r.Sound b world.executed.length ∧ world.heap.Grown r.world.heap := by
  have grown : world.heap.Grown (evaluateStart world evaluate).world.heap := Slice.alloc_grown _
  apply Machine.run_yields_within
    (fun c => c.Sound b world.executed.length ∧ world.heap.Grown c.world.heap)
    (fun c => maxActions - 1 - c.exec)
  · intro c ⟨sound, grown⟩
    apply (evaluateStep_spec sound).imp
    intro next holds
    cases next with
    | inl d =>
      obtain ⟨⟨sound', grown'⟩, exec⟩ := holds
      have below := sound'.below
      exact ⟨⟨sound', grown.trans grown'⟩, by omega⟩
    | inr r => exact ⟨holds.1, grown.trans holds.2⟩
  · exact ⟨⟨sound.trans grown, Slice.alloc_inside _ _, rfl, Nat.zero_lt_succ 99⟩, grown⟩
  · exact Nat.lt_succ_self 99

end Evaluating

section Processing

structure Processing.Sound (b : Behaviour σ A n) (c : Processing σ A n) : Prop where
  world : c.world.Sound b
  actions : c.actions.Inside c.world.heap
  counts : c.world.executed.length = c.exec
  missed : c.exec ≠ maxActions

-- If the next action asks for an evaluation, then the actions executed so far, this one, and those that
-- the deferred ones execute keep within the limit.
def Processing.Fits (b : Behaviour σ A n) (c : Processing σ A n) : Prop :=
  ∀ a world next done, c.curr < c.actions.len →
    (c.actions.get c.world.heap)[c.curr]? = some a → a.onEvaluate = false →
    b.act c.world a.action = (world, next, .EVALUATE) →
    evaluatePacket b world c.evaluate = .ok done → c.exec + 1 + done.exec ≤ maxActions

def ranBy : Processing σ A n ⊕ Processed σ A n → Nat
  | .inl d => d.exec
  | .inr r => r.world.executed.length

structure Passed (b : Behaviour σ A n) (c : Processing σ A n)
    (next : Processing σ A n ⊕ Processed σ A n) : Prop where
  mono : c.exec ≤ ranBy next
  fits : c.Fits b → c.exec < maxActions → ranBy next ≤ maxActions
  beyond : ¬ c.Fits b → maxActions < ranBy next
  goes : ∀ d, next = .inl d → d.Sound b ∧
    (c.exec < d.exec ∨ d.exec = c.exec ∧ d.actions.len - d.curr < c.actions.len - c.curr)
  ends : ∀ r, next = .inr r → c.Fits b → c.exec < maxActions → ranBy next = maxActions →
    r.err.isSome

variable {c : Processing σ A n}

theorem settleState_spec (evaluate : List (ActionAttr A)) (state : State) {world : World σ A n}
    {next : Slice} {exec : Nat} (sound : world.Sound b) (inside : c.actions.Inside world.heap)
    (nextIn : next.Inside world.heap) (counts : world.executed.length = exec) :
    ranBy (settleState c world next evaluate exec state) = exec ∧
      (∀ d, settleState c world next evaluate exec state = .inl d → d.Sound b) ∧
      ∀ r, settleState c world next evaluate exec state = .inr r → exec = maxActions →
        r.err.isSome := by
  unfold settleState
  split
  · refine ⟨counts, nofun, fun r isR _ => ?_⟩
    cases isR
    rfl
  next missed =>
  split
  · exact ⟨counts, nofun, fun _ _ limit => absurd limit missed⟩
  split
  · obtain ⟨world', actions, followed⟩ : ∃ w s, follow world c.actions (c.curr + 1) next = (w, s) :=
      ⟨_, _, rfl⟩
    obtain ⟨same, -, grown, inside'⟩ := follow_spec nextIn followed
    rw [followed]
    refine ⟨rfl, fun d isD => ?_, nofun⟩
    cases isD
    exact ⟨sound.trans grown, inside', by rw [same, counts], missed⟩
  · refine ⟨rfl, fun d isD => ?_, nofun⟩
    cases isD
    exact ⟨sound, inside, counts, missed⟩

theorem passed_settle {world : World σ A n} {next : Slice} {evaluate : List (ActionAttr A)}
    {exec : Nat} {state : State} (sound : world.Sound b) (inside : c.actions.Inside world.heap)
    (nextIn : next.Inside world.heap) (counts : world.executed.length = exec)
    (later : c.exec < exec) (fits : c.Fits b → c.exec < maxActions → exec ≤ maxActions)
    (beyond : ¬ c.Fits b → maxActions < exec) :
    Passed b c (settleState c world next evaluate exec state) := by
  obtain ⟨ran, goes, ends⟩ := settleState_spec evaluate state sound inside nextIn counts
  constructor
  · rw [ran]
    exact later.le
  · rwa [ran]
  · rwa [ran]
  · intro d isD
    refine ⟨goes d isD, Or.inl ?_⟩
    rw [isD] at ran
    exact later.trans_eq ran.symm
  · intro r isR _ _ limit
    exact ends r isR (ran.symm.trans limit)

theorem processStep_spec (sound : c.Sound b) : (processStep b c).Yields (Passed b c) := by
  unfold processStep
  split
  · next more =>
    obtain ⟨a, isAction⟩ := Slice.get_cell sound.actions more
    rw [isAction]
    dsimp only
    split
    · next tagged =>
      -- The action is deferred, and nothing runs.
      have fits : c.Fits b := by
        intro a' _ _ _ _ isAction' untagged
        rw [isAction] at isAction'
        cases isAction'
        simp [tagged] at untagged
      refine .pure ⟨Nat.le_refl _, fun _ below => below.le, fun not => absurd fits not, ?_, nofun⟩
      intro d isD
      cases isD
      exact ⟨⟨sound.world, sound.actions, sound.counts, sound.missed⟩, Or.inr ⟨rfl, by
        dsimp only
        omega⟩⟩
    next untagged =>
    rw [Bool.not_eq_true] at untagged
    obtain ⟨world, next, state, acted⟩ : ∃ w s t, b.act c.world a.action = (w, s, t) :=
      ⟨_, _, _, rfl⟩
    obtain ⟨ran, grown, inside⟩ := b.act_spec sound.world acted
    rw [sound.counts] at ran
    have sound' : world.Sound b := sound.world.trans grown
    rw [acted]
    dsimp only
    split
    · next evaluates =>
      subst evaluates
      obtain ⟨done, evaluated, doneSound, grown'⟩ := evaluatePacket_spec sound' c.evaluate
      have counts : done.world.executed.length = c.exec + 1 + done.exec := by
        rw [doneSound.counts, ran]
      have fits : c.Fits b ↔ c.exec + 1 + done.exec ≤ maxActions := by
        constructor
        · intro fits
          exact fits a world next done more isAction untagged acted evaluated
        · intro within a' world' next' done' _ isAction' _ acted' evaluated'
          rw [isAction] at isAction'
          cases isAction'
          rw [acted] at acted'
          cases acted'
          rw [evaluated] at evaluated'
          cases evaluated'
          exact within
      rw [evaluated]
      dsimp only [Outcome.ok_bind]
      split
      · next failed =>
        -- The deferred actions alone are as many as the limit.
        have limit := doneSound.err failed
        have beyond : maxActions < done.world.executed.length := by omega
        refine .pure ⟨by dsimp only [ranBy]; omega, fun within => ?_, fun _ => beyond, nofun, ?_⟩
        · have := fits.mp within
          omega
        · intro r _ within
          have := fits.mp within
          omega
      · refine .pure (passed_settle doneSound.world ?_ (inside.grown grown') counts (by omega)
          (fun within _ => fits.mp within) fun not => ?_)
        · exact sound.actions.grown (grown.trans grown')
        · have := mt fits.mpr not
          omega
    · next goesOn =>
      have fits : c.Fits b := by
        intro a' world' next' done' _ isAction' _ acted'
        rw [isAction] at isAction'
        cases isAction'
        rw [acted] at acted'
        cases acted'
        exact absurd rfl goesOn
      exact .pure (passed_settle sound' (sound.actions.grown grown) inside ran (by omega)
        (fun _ below => below) fun not => absurd fits not)
  · next beyond =>
    have fits : c.Fits b := fun _ _ _ _ more => absurd more beyond
    have ran : ranBy (.inr ⟨c.world, c.state, none⟩ : Processing σ A n ⊕ Processed σ A n) = c.exec :=
      sound.counts
    refine .pure ⟨ran.ge, fun _ below => ran.trans_le below.le, fun not => absurd fits not, nofun, ?_⟩
    intro _ _ _ _ limit
    exact absurd (ran.symm.trans limit) sound.missed

-- The run ends after at most `maxActions` actions, and with an error if it was that many.
def Bounded (b : Behaviour σ A n) (packet : σ) (actions : Returned A n) : Prop :=
  ∃ fuel, (processPacket b fuel packet actions).Yields fun r =>
    r.world.executed.length ≤ maxActions ∧
      (r.world.executed.length = maxActions → r.err.isSome)

theorem processStart_sound (b : Behaviour σ A n) (packet : σ) (actions : Returned A n) :
    (processStart b packet actions).Sound b := by
  obtain ⟨world, slice, held⟩ : ∃ w s, b.hold ⟨packet, b.heap, [], []⟩ actions = (w, s) := ⟨_, _, rfl⟩
  have sound : World.Sound b (⟨packet, b.heap, [], []⟩ : World σ A n) := Heap.Grown.refl _
  obtain ⟨executed, -, wrote, inside⟩ := b.hold_spec sound held
  unfold processStart
  rw [held]
  refine ⟨sound.trans wrote.grown, inside, ?_, Nat.zero_ne_add_one 99⟩
  rw [executed]
  rfl

variable {start : Processing σ A n}

theorem reaches_sound (sound : start.Sound b)
    (reaches : Machine.Reaches (processStep b) start c) : c.Sound b := by
  apply reaches.invariant (fun c => c.Sound b) sound
  intro c d sound goes
  obtain ⟨next, isNext, passed⟩ := processStep_spec sound
  rw [goes] at isNext
  cases isNext
  exact (passed.goes d rfl).1

theorem run_ran (sound : start.Sound b) {least : Nat} (ran : least ≤ start.exec) (fuel : Nat) :
    (Machine.run (processStep b) fuel start).Whenever fun r =>
      least ≤ r.world.executed.length := by
  refine Machine.run_whenever (fun c : Processing σ A n => c.Sound b ∧ least ≤ c.exec)
    (fun c holds => ?_) ⟨sound, ran⟩ fuel
  intro next goes
  have passed := (processStep_spec holds.1).whenever next goes
  cases next with
  | inl d => exact ⟨(passed.goes d rfl).1, holds.2.trans passed.mono⟩
  | inr r => exact holds.2.trans passed.mono

theorem bounded_of_fits (sound : start.Sound b) (below : start.exec < maxActions)
    (fits : ∀ c, Machine.Reaches (processStep b) start c → c.Fits b) :
    ∃ fuel, (Machine.run (processStep b) fuel start).Yields fun r =>
      r.world.executed.length ≤ maxActions ∧
        (r.world.executed.length = maxActions → r.err.isSome) := by
  -- Each pass executes an action or leaves fewer pending ones.
  have wf := InvImage.wf (fun c : Processing σ A n => (maxActions - c.exec, c.actions.len - c.curr))
    (WellFounded.prod_lex Nat.lt_wfRel.wf Nat.lt_wfRel.wf)
  apply Machine.run_yields (fun c => Machine.Reaches (processStep b) start c ∧
    c.Sound b ∧ c.exec < maxActions) wf
  · intro c ⟨reaches, sound, below⟩
    obtain ⟨next, goes, passed⟩ := processStep_spec sound
    have within := passed.fits (fits c reaches) below
    refine ⟨next, goes, ?_⟩
    cases next with
    | inl d =>
      obtain ⟨sound', progress⟩ := passed.goes d rfl
      have below' : d.exec < maxActions := Nat.lt_of_le_of_ne within sound'.missed
      refine ⟨⟨reaches.pass goes, sound', below'⟩, ?_⟩
      rcases progress with more | ⟨same, fewer⟩
      · exact Prod.Lex.left _ _ (Nat.sub_lt_sub_left below more)
      · simp only [InvImage, same]
        exact Prod.Lex.right _ fewer
    | inr r => exact ⟨within, passed.ends r rfl (fits c reaches) below⟩
  · exact ⟨.start, sound, below⟩

theorem processPacket_bounded_iff (b : Behaviour σ A n) (packet : σ) (actions : Returned A n) :
    Bounded b packet actions ↔
      ∀ c, Machine.Reaches (processStep b) (processStart b packet actions) c → c.Fits b := by
  have sound := processStart_sound b packet actions
  constructor
  · intro ⟨fuel, r, ended, within, _⟩ c reaches
    by_contra not
    obtain ⟨next, goes, passed⟩ := processStep_spec (reaches_sound sound reaches)
    -- The actions that have run are never fewer later on.
    have beyond := passed.beyond not
    obtain ⟨passes, same⟩ := reaches.run_eq
    have ended' : Machine.run (processStep b) (fuel + 1 + passes) (processStart b packet actions) =
        .ok r := Machine.run_more ended (by omega)
    rw [same (fuel + 1)] at ended'
    cases next with
    | inl d =>
      rw [Machine.run_pass goes] at ended'
      have := run_ran (passed.goes d rfl).1 beyond fuel r ended'
      omega
    | inr r' =>
      rw [Machine.run_end goes] at ended'
      cases ended'
      exact absurd within (Nat.not_le.mpr beyond)
  · intro fits
    exact bounded_of_fits sound (Nat.zero_lt_succ 99) fits

inductive Runaway where
  | pass
  | many
  | evaluate
  | again
deriving DecidableEq

def runaway : Behaviour Unit Runaway 1 where
  kept := fun _ => ⟨[⟨false, .again⟩], 1, Nat.le_refl 1⟩
  process := fun
    | .pass, packet => (packet, .new [], .CONTINUE)
    | .many, packet => (packet, .new (List.replicate 98 ⟨false, .pass⟩), .CONTINUE)
    | .evaluate, packet => (packet, .new [], .EVALUATE)
    | .again, packet => (packet, .kept 0, .CONTINUE)
  writes := fun _ _ _ => []

def runawayList : List (ActionAttr Runaway) :=
  [⟨true, .many⟩, ⟨false, .pass⟩, ⟨false, .evaluate⟩, ⟨false, .again⟩]

def Spins (c : Processing Unit Runaway 1) : Prop :=
  maxActions < c.exec ∧ c.curr = 0 ∧ c.actions = ⟨0, 0, 1⟩ ∧
    c.world.heap.array 0 = [⟨false, .again⟩]

instance (c : Processing Unit Runaway 1) : Decidable (Spins c) :=
  inferInstanceAs (Decidable (_ ∧ _ ∧ _ ∧ _))

theorem spins_pass (c : Processing Unit Runaway 1) (spins : Spins c) :
    ∃ d, processStep runaway c = .ok (.inl d) ∧ Spins d := by
  obtain ⟨beyond, curr, actions, cells⟩ := spins
  have isAction : (c.actions.get c.world.heap)[c.curr]? = some ⟨false, .again⟩ := by
    rw [curr, actions, Slice.get, cells]
    rfl
  have more : c.curr < c.actions.len := by
    rw [curr, actions]
    exact Nat.zero_lt_one
  have missed : c.exec + 1 ≠ maxActions := by omega
  -- Nothing is pending, so that the returned list takes the place of the one at hand.
  have goes : processStep runaway c = .ok (.inl ⟨⟨c.world.packet, c.world.heap,
      c.world.executed ++ [(.again, .kept 0)], c.world.written⟩, ⟨0, 0, 1⟩, c.evaluate, 0, c.exec + 1, .CONTINUE⟩) := by
    have last : c.curr + 1 = c.actions.len := by rw [curr, actions]
    rw [processStep, if_pos more, isAction]
    simp [Behaviour.act, Behaviour.hold, Behaviour.write, Behaviour.stored, runaway, settleState, missed, follow, last]
  exact ⟨_, goes, Nat.lt_succ_of_lt beyond, rfl, rfl, cells⟩

-- After the evaluation 101 actions have run, which is not 100: the limit is passed unnoticed.
theorem processPacket_runs_away :
    ¬ ∃ fuel r, processPacket runaway fuel () (.new runawayList) = .ok r := by
  have reached : (Machine.after (processStep runaway) 4
      (processStart runaway () (.new runawayList))).any (fun c => decide (Spins c)) = true := by
    decide +kernel
  intro ⟨fuel, r, ended⟩
  rw [Option.any_eq_true] at reached
  obtain ⟨c, isAfter, spins⟩ := reached
  obtain ⟨passes, same⟩ := (Machine.reaches_after isAfter).run_eq
  have more := Machine.run_more ended (Nat.le_add_right fuel passes)
  rw [same fuel, Machine.run_diverges Spins spins_pass (of_decide_eq_true spins) fuel] at more
  cases more

end Processing

end Lemming.Action
