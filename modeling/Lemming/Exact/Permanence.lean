import Lemming.Exact.Operations

set_option autoImplicit false

namespace Lemming.Exact

open Packet Shared

variable {A : Type}

inductive Op (A : Type) where
  | addEntry (ed : Option ExactEntryDesc) (actions : Except String A)
  | removeEntry (ed : Option ExactEntryDesc)
  | clear
  | process (packet : FieldID → Option Bytes)
  | learn (packet : FieldID → Except String Bytes)
  | processLearn (port : Bytes → Option (Except String A))
  | age (later : Int)

abbrev Log (A : Type) := List (Op A × Option String)

section Runs

variable (env : Env A)

def Op.run (b : Bridge A) (now : Int) : Op A → Outcome (Bridge A × Option String)
  | .addEntry ed actions => do
    let s ← b.table.addEntry env ed actions now
    return ({ b with table := s.1 }, s.2)
  | .removeEntry ed => do
    let s ← b.table.removeEntry env ed
    return ({ b with table := s.1 }, s.2)
  | .clear => do return ({ b with table := ← b.table.clear }, none)
  | .process packet => do
    let s ← b.table.process env packet now
    return ({ b with table := s.1 }, none)
  | .learn packet => b.learnPacket packet
  | .processLearn port => do return (← b.processLearn env port now, none)
  | .age later => do
    let s ← b.table.age now later
    return ({ b with table := s.1 }, none)

def runs : Bridge A × Log A → List (Op A × Int) → Outcome (Bridge A × Log A)
  | s, [] => .ok s
  | (b, log), (op, now) :: rest => do
    let s ← op.run env b now
    runs (s.1, log ++ [(op, s.2)]) rest

def start (desc : List FieldID) (actions : A) (timeout : Nat) : Bridge A × Log A :=
  (⟨Table.new desc actions timeout, []⟩, [])

-- What an operation makes of the actions that static entries were given: a successful AddEntry gives
-- them, and a successful RemoveEntry or a Clear takes them away.
def pin (desc : List FieldID) (pinned : Key → Option A) : Op A × Option String → Key → Option A
  | (.addEntry (some ⟨fields, false⟩) (.ok actions), none) =>
    match newExactKey env desc fields with
    | .ok key => Function.update pinned key (some actions)
    | .error _ => pinned
  | (.removeEntry (some ⟨fields, _⟩), none) =>
    match newExactKey env desc fields with
    | .ok key => Function.update pinned key none
    | .error _ => pinned
  | (.clear, _) => fun _ => none
  | _ => pinned

def Log.pinned (desc : List FieldID) (log : Log A) : Key → Option A :=
  log.foldl (pin env desc) fun _ => none

def Permanent (b : Bridge A) (log : Log A) : Prop :=
  ∀ key actions, log.pinned env b.table.desc key = some actions →
    b.table.view key = some (actions, false)

-- No static entry is added over a transient one, and there are no transient entries when the table is
-- cleared.
def Op.Safe (b : Bridge A) : Op A → Prop
  | .addEntry ed actions => Table.Vacant env ed b.table actions
  | .clear => b.table.stale.bind StaleList.head = none
  | _ => True

end Runs

section Steps

variable {env : Env A} {b b' : Bridge A} {log : Log A}

theorem pinned_snoc (desc : List FieldID) (log : Log A) (entry : Op A × Option String) :
    Log.pinned env desc (log ++ [entry]) = pin env desc (log.pinned env desc) entry := by
  rw [Log.pinned, List.foldl_append]
  rfl

theorem pin_failed (desc : List FieldID) (pinned : Key → Option A) {op : Op A} (kept : op ≠ .clear)
    {err : Option String} (failed : err ≠ none) : pin env desc pinned (op, err) = pinned := by
  unfold pin
  split <;> simp_all

theorem Permanent.keep (permanent : Permanent env b log) {entry : Op A × Option String}
    (unpinned : pin env b.table.desc (log.pinned env b.table.desc) entry =
      log.pinned env b.table.desc)
    (desc : b'.table.desc = b.table.desc) (kept : ∀ key, Table.Keeps b.table b'.table key) :
    Permanent env b' (log ++ [entry]) := by
  intro key actions isPinned
  rw [desc, pinned_snoc, unpinned] at isPinned
  exact kept key actions (permanent key actions isPinned)

theorem Permanent.update (permanent : Permanent env b log) {entry : Op A × Option String} {key : Key}
    (given : Option A) (isPin : pin env b.table.desc (log.pinned env b.table.desc) entry =
      Function.update (log.pinned env b.table.desc) key given) (desc : b'.table.desc = b.table.desc)
    (others : ∀ other, other ≠ key → Table.Keeps b.table b'.table other)
    (own : ∀ actions, given = some actions → b'.table.view key = some (actions, false)) :
    Permanent env b' (log ++ [entry]) := by
  intro other actions isPinned
  rw [desc, pinned_snoc, isPin] at isPinned
  by_cases same : other = key
  · subst same
    rw [Function.update_self] at isPinned
    exact own actions isPinned
  · rw [Function.update_of_ne same] at isPinned
    exact others other same actions (permanent other actions isPinned)

section

variable (sound : b.table.Sound)
include sound

theorem learnPacket_table (packet : FieldID → Except String Bytes) :
    (b.learnPacket packet).Yields fun s => s.1.table = b.table := by
  obtain ⟨ids, stales, consistent⟩ := sound
  unfold Bridge.learnPacket
  split
  · exact .pure rfl
  · rw [consistent.chains.find_eq, Outcome.ok_bind]
    split
    · exact .pure rfl
    · split
      · exact .pure rfl
      · exact .pure rfl

theorem run_permanent (permanent : Permanent env b log) {op : Op A}
    (safe : op.Safe env b) (now : Int) :
    (op.run env b now).Yields fun s => s.1.table.Sound ∧
      Permanent env s.1 (log ++ [(op, s.2)]) := by
  cases op with
  | addEntry ed actions =>
    apply (Table.addEntry_spec env ed sound safe now).bind
    rintro ⟨t', err⟩ (⟨failed, rfl⟩ | ⟨rfl, ex, key, acts, rfl, isKey, rfl, puts⟩)
    · exact .pure ⟨sound, permanent.keep (pin_failed _ _ (by simp) failed) rfl (Table.Keeps.refl _)⟩
    · refine .pure ⟨puts.sound, ?_⟩
      obtain ⟨fields, _ | _⟩ := ex
      · refine permanent.update (some acts) ?_ puts.desc puts.others fun actions isActs => ?_
        · simp only [pin, isKey]
        · cases isActs
          exact puts.added rfl
      · exact permanent.keep rfl puts.desc puts.keeps
  | removeEntry ed =>
    apply (Table.removeEntry_spec env ed sound).bind
    rintro ⟨t', err⟩ (⟨failed, rfl⟩ | ⟨rfl, ex, key, rfl, isKey, sound', desc, kept⟩)
    · exact .pure ⟨sound, permanent.keep (pin_failed _ _ (by simp) failed) rfl (Table.Keeps.refl _)⟩
    · refine .pure ⟨sound', permanent.update none (by simp only [pin, isKey]) desc kept (by simp)⟩
  | clear =>
    apply (Table.clear_spec sound safe).bind
    intro t' ⟨sound', _⟩
    refine .pure ⟨sound', fun key actions isPinned => ?_⟩
    rw [pinned_snoc] at isPinned
    cases isPinned
  | process packet =>
    apply (Table.process_spec env sound packet now).bind
    intro s ⟨sound', desc, kept⟩
    exact .pure ⟨sound', permanent.keep rfl desc kept⟩
  | learn packet =>
    apply (learnPacket_table sound packet).imp
    intro s same
    refine ⟨same ▸ sound, permanent.keep rfl (by rw [same]) fun key => ?_⟩
    rw [same]
    exact Table.Keeps.refl _ _
  | processLearn port =>
    rw [Op.run, Bridge.processLearn]
    split
    · exact .pure ⟨sound, permanent.keep rfl rfl (Table.Keeps.refl _)⟩
    · next request learn _ =>
      split
      · exact .pure ⟨sound, permanent.keep rfl rfl (Table.Keeps.refl _)⟩
      · next actions _ =>
        have vacant := Table.vacant_learned (t := b.table) env [(Bridge.macDst, request.mac)] actions
        refine ((Table.addEntry_spec env _ sound vacant now).bind ?_).bind fun b' holds => .pure holds
        rintro ⟨t', err⟩ (⟨-, rfl⟩ | ⟨-, ex, key, acts, isDesc, -, -, puts⟩)
        · exact .pure ⟨sound, permanent.keep rfl rfl (Table.Keeps.refl _)⟩
        · cases isDesc
          exact .pure ⟨puts.sound, permanent.keep rfl puts.desc puts.keeps⟩
  | age later =>
    apply (Table.age_spec sound now later).bind
    intro s ⟨sound', desc, kept⟩
    exact .pure ⟨sound', permanent.keep rfl desc kept⟩

end

end Steps

section Whole

variable {env : Env A}

theorem runs_snoc (s : Bridge A × Log A) (ops : List (Op A × Int)) (op : Op A) (now : Int) :
    runs env s (ops ++ [(op, now)]) = do
      let s ← runs env s ops
      let s' ← op.run env s.1 now
      return (s'.1, s.2 ++ [(op, s'.2)]) := by
  induction ops generalizing s with
  | nil => rfl
  | cons first rest ih =>
    rw [List.cons_append, runs, runs, bind_assoc]
    congr 1
    funext s'
    exact ih _

theorem runs_permanent {desc : List FieldID} {actions : A} {timeout : Nat}
    {ops : List (Op A × Int)}
    (safe : ∀ before op now, before ++ [(op, now)] <+: ops →
      (runs env (start desc actions timeout) before).Whenever fun s => op.Safe env s.1) :
    (runs env (start desc actions timeout) ops).Yields fun s =>
      s.1.table.Sound ∧ Permanent env s.1 s.2 := by
  induction ops using List.reverseRecOn with
  | nil =>
    exact .pure ⟨⟨[], [], Table.new_consistent desc actions timeout⟩, fun _ _ isPinned => nomatch isPinned⟩
  | append_singleton ops last ih =>
    obtain ⟨op, now⟩ := last
    obtain ⟨s, ran, sound, permanent⟩ := ih fun before op' now' isPrefix =>
      safe before op' now' (isPrefix.trans (List.prefix_append _ _))
    rw [runs_snoc, ran]
    apply (run_permanent sound permanent (safe ops op now (List.prefix_refl _) s ran) now).bind
    intro s' holds
    exact .pure holds

theorem static_entries_permanent (env : Env A) (desc : List FieldID) (actions : A) (timeout : Nat)
    (ops : List (Op A × Int))
    (safe : ∀ before op now, before ++ [(op, now)] <+: ops →
      (runs env (start desc actions timeout) before).Whenever fun s => op.Safe env s.1)
    (before : List (Op A × Int)) (isPrefix : before <+: ops) :
    (runs env (start desc actions timeout) before).Yields fun s => Permanent env s.1 s.2 := by
  apply (runs_permanent fun before' op now isPrefix' =>
    safe before' op now (isPrefix'.trans isPrefix)).imp
  intro s holds
  exact holds.2

end Whole

section Cases

def octets : Env Nat where
  maxSize := fun _ => 1
  validate := fun _ _ => none
  isEqual := fun a b => a == b
  fieldText := fun _ => ""
  fieldsText := fun _ => ""
  keyText := fun _ => ""
  entryText := fun _ => ""

def packetOf (src dst : UInt8) : FieldID → Except String Bytes := fun id =>
  if id = Bridge.macSrc then .ok [src]
  else if id = Bridge.macDst then .ok [dst]
  else if id = Bridge.portInput then .ok [7]
  else .error "no such field"

def calmOps : List (Op Nat × Int) :=
  [(.addEntry (some ⟨[(Bridge.macDst, [1])], false⟩) (.ok 2), 0), (.learn (packetOf 3 1), 1),
    (.processLearn fun _ => some (.ok 5), 2), (.process fun id => (packetOf 1 3 id).toOption, 3), (.age 0, 10000000000)]

theorem static_entries_permanent_calm :
    (runs octets (start [Bridge.macDst] 0 1) calmOps).Yields fun s => Permanent octets s.1 s.2 := by
  refine static_entries_permanent octets [Bridge.macDst] 0 1 calmOps ?_ calmOps (List.prefix_refl _)
  intro before op now ⟨rest, isCalm⟩ s ran
  cases before with
  | nil =>
    cases isCalm
    cases ran
    -- The first operation finds an empty table.
    intro ex key acts _ _ _ _
    nofun
  | cons first before =>
    have later : (op, now) ∈ calmOps.tail := by
      rw [← isCalm]
      simp
    simp only [calmOps, List.tail_cons, List.mem_cons, List.not_mem_nil, or_false] at later
    rcases later with isOp | isOp | isOp | isOp <;> cases isOp <;> trivial

-- A learned entry that is then added as a static one, with other actions: once a packet has hit it, a
-- later pass removes it.
theorem learned_entry_expires : ∃ b log, runs octets (start [Bridge.macDst] 0 1)
      [(.learn (packetOf 1 3), 0), (.processLearn fun _ => some (.ok 5), 1),
        (.addEntry (some ⟨[(Bridge.macDst, [1])], false⟩) (.ok 2), 2),
        (.process fun id => (packetOf 3 1 id).toOption, 3), (.age 0, 10000000000)] = .ok (b, log) ∧
    log.pinned octets b.table.desc [1] = some 2 ∧ b.table.view [1] = none :=
  ⟨_, _, rfl, by decide, by decide⟩

end Cases

end Lemming.Exact
