import Lemming.Shared.Iteration
import Lemming.Shared.Outcome

set_option autoImplicit false

namespace Lemming.PacketIo

open Shared

inductive Code where
  | ok
  | failedPrecondition
  | internal
deriving DecidableEq

structure Status where
  code : Code
  message : String
deriving DecidableEq

def Status.ofResult : Option String → Status
  | none => ⟨.ok, ""⟩
  | some err => ⟨.internal, err⟩

inductive HostPort where
  | genetlink (family group : String)
  | netdev (name : String)
  | unset

structure HostPortControlMessage where
  portId : UInt64
  dataplanePort : UInt64
  create : Bool
  port : HostPort

variable {P : Type}

structure Port (P : Type) where
  io : P
  done : Nat

structure PacketIOMgr (P : Type) where
  hostifs : GoMap UInt64 (Port P)
  dplanePortIfIndex : GoMap UInt64 Int
  channels : Nat
  closed : List Nat

-- What the kernel and the stream answer while a message is handled: the new port with its interface
-- index, the error of the deletion, and the error of each status that is sent.
structure Answers (P : Type) where
  create : Except String (P × Int)
  delete : Option String
  send : Nat → Option String

namespace PacketIOMgr

def new : PacketIOMgr P where
  hostifs := ∅
  dplanePortIfIndex := ∅
  channels := 0
  closed := []

def addPort (m : PacketIOMgr P) (id : UInt64) (io : P) : PacketIOMgr P :=
  { m with hostifs := m.hostifs.insert id ⟨io, m.channels⟩, channels := m.channels + 1 }

def createPort (m : PacketIOMgr P) (msg : HostPortControlMessage) (answers : Answers P) :
    PacketIOMgr P × Option String :=
  match msg.port with
  | .genetlink _ _ =>
    match answers.create with
    | .error err => (m, some err)
    | .ok (p, _) => (m.addPort msg.portId p, none)
  | .netdev _ =>
    match answers.create with
    | .error err => (m, some err)
    | .ok (p, ifIndex) =>
      ({ m with dplanePortIfIndex := m.dplanePortIfIndex.insert msg.dataplanePort ifIndex }.addPort
        msg.portId p, none)
  | .unset => (m, some "unsupported port type: <nil>")

def cancel (m : PacketIOMgr P) (p : Port P) : Outcome (PacketIOMgr P) :=
  if p.done ∈ m.closed then .panic else .ok { m with closed := p.done :: m.closed }

end PacketIOMgr

structure Handled (P : Type) where
  mgr : PacketIOMgr P
  statuses : List Status
  err : Option String

namespace PacketIOMgr

def handle (m : PacketIOMgr P) (msg : HostPortControlMessage) (answers : Answers P) :
    Outcome (Handled P) :=
  if msg.create then
    let created := m.createPort msg answers
    .ok ⟨created.1, [.ofResult created.2], answers.send 0⟩
  else
    match m.hostifs.lookup msg.portId with
    | none => .ok ⟨m, [⟨.failedPrecondition, "port " ++ toString msg.portId ++ " doesn't exist"⟩],
        answers.send 0⟩
    | some p => do
      let m ← m.cancel p
      let removed := { m with hostifs := m.hostifs.erase msg.portId }
      match answers.delete with
      | none => return ⟨removed, [⟨.ok, ""⟩], answers.send 0⟩
      | some err =>
        match answers.send 0 with
        | some sendErr => return ⟨m, [⟨.internal, err⟩], some sendErr⟩
        -- The failed deletion is reported, and then goes on like one that succeeded.
        | none => return ⟨removed, [⟨.internal, err⟩, ⟨.ok, ""⟩], answers.send 1⟩

def succeeds (m : PacketIOMgr P) (msg : HostPortControlMessage) (answers : Answers P) : Bool :=
  if msg.create then (m.createPort msg answers).2.isNone
  else (m.hostifs.lookup msg.portId).isSome && answers.delete.isNone

structure Answered where
  succeeded : Bool
  statuses : List Status

def managePorts (m : PacketIOMgr P) :
    List (HostPortControlMessage × Answers P) → Outcome (List Answered)
  | [] => .ok []
  | (msg, answers) :: rest => do
    let handled ← m.handle msg answers
    let answered : Answered := ⟨m.succeeds msg answers, handled.statuses⟩
    match handled.err with
    | some _ => return [answered]
    | none => return answered :: (← managePorts handled.mgr rest)

end PacketIOMgr

open PacketIOMgr

def Status.isOK (st : Status) : Bool := st.code = .ok

-- Exactly one status for each message, in the order in which they were received, and OK exactly for the
-- operations that succeeded.
def OneStatusEach (log : List Answered) : Prop :=
  (log.flatMap Answered.statuses).map Status.isOK = log.map Answered.succeeded

namespace PacketIOMgr

def deleteFails (m : PacketIOMgr P) (msg : HostPortControlMessage) (answers : Answers P) : Bool :=
  !msg.create && (m.hostifs.lookup msg.portId).isSome && answers.delete.isSome &&
    (answers.send 0).isNone

def NoDeleteFails (m : PacketIOMgr P) : List (HostPortControlMessage × Answers P) → Prop
  | [] => True
  | (msg, answers) :: rest => m.deleteFails msg answers = false ∧
    ∀ handled, m.handle msg answers = .ok handled → handled.err = none →
      NoDeleteFails handled.mgr rest

structure Open (m : PacketIOMgr P) : Prop where
  made : ∀ id p, m.hostifs.lookup id = some p → p.done < m.channels ∧ p.done ∉ m.closed
  apart : ∀ id id' p p', m.hostifs.lookup id = some p → m.hostifs.lookup id' = some p' →
    p.done = p'.done → id = id'
  past : ∀ channel ∈ m.closed, channel < m.channels

variable {m : PacketIOMgr P} {msg : HostPortControlMessage} {answers : Answers P}

theorem new_open : (new : PacketIOMgr P).Open where
  made := fun id p found => by cases found
  apart := fun id id' p p' found => by cases found
  past := by simp [new]

theorem Open.addPort (isOpen : m.Open) (id : UInt64) (io : P) : (m.addPort id io).Open := by
  have lookup (other : UInt64) (p : Port P)
      (found : (m.addPort id io).hostifs.lookup other = some p) :
      (other = id ∧ p.done = m.channels) ∨ (other ≠ id ∧ m.hostifs.lookup other = some p) := by
    by_cases same : other = id
    · subst same
      simp only [PacketIOMgr.addPort, AList.lookup_insert, Option.some_inj] at found
      exact Or.inl ⟨rfl, found ▸ rfl⟩
    · simp only [PacketIOMgr.addPort, AList.lookup_insert_ne same] at found
      exact Or.inr ⟨same, found⟩
  refine ⟨?_, ?_, ?_⟩
  · intro other p found
    rcases lookup other p found with ⟨-, new⟩ | ⟨-, old⟩
    · rw [new]
      exact ⟨Nat.lt_succ_self _, fun closed => Nat.lt_irrefl _ (isOpen.past _ closed)⟩
    · obtain ⟨bound, notClosed⟩ := isOpen.made other p old
      exact ⟨Nat.lt_succ_of_lt bound, notClosed⟩
  · intro other other' p p' found found' same
    rcases lookup other p found with ⟨isNew, new⟩ | ⟨-, old⟩ <;>
      rcases lookup other' p' found' with ⟨isNew', new'⟩ | ⟨-, old'⟩
    · rw [isNew, isNew']
    · have bound := (isOpen.made other' p' old').1
      omega
    · have bound := (isOpen.made other p old).1
      omega
    · exact isOpen.apart other other' p p' old old' same
  · exact fun channel closed => Nat.lt_succ_of_lt (isOpen.past channel closed)

theorem Open.createPort (isOpen : m.Open) : (m.createPort msg answers).1.Open := by
  unfold PacketIOMgr.createPort
  split
  · split
    · exact isOpen
    · exact isOpen.addPort _ _
  · split
    · exact isOpen
    · have other (index : GoMap UInt64 Int) : { m with dplanePortIfIndex := index }.Open :=
        ⟨isOpen.made, isOpen.apart, isOpen.past⟩
      exact (other _).addPort _ _
  · exact isOpen

theorem Open.remove (isOpen : m.Open) {id : UInt64} {p : Port P}
    (found : m.hostifs.lookup id = some p) :
    m.cancel p = .ok { m with closed := p.done :: m.closed } ∧
      { m with closed := p.done :: m.closed, hostifs := m.hostifs.erase id }.Open := by
  obtain ⟨bound, notClosed⟩ := isOpen.made id p found
  have kept (other : UInt64) (q : Port P) (there : (m.hostifs.erase id).lookup other = some q) :
      other ≠ id ∧ m.hostifs.lookup other = some q := by
    have different : other ≠ id := by
      rintro rfl
      rw [AList.lookup_erase] at there
      cases there
    rw [AList.lookup_erase_ne different] at there
    exact ⟨different, there⟩
  refine ⟨by rw [cancel, if_neg notClosed], ?_, ?_, ?_⟩
  · intro other q there
    obtain ⟨different, old⟩ := kept other q there
    obtain ⟨bound', notClosed'⟩ := isOpen.made other q old
    refine ⟨bound', fun closed => ?_⟩
    rcases List.mem_cons.mp closed with same | before
    · exact different (isOpen.apart other id q p old found same)
    · exact notClosed' before
  · intro other other' q q' there there'
    exact isOpen.apart other other' q q' (kept other q there).2 (kept other' q' there').2
  · intro channel closed
    rcases List.mem_cons.mp closed with rfl | before
    · exact bound
    · exact isOpen.past channel before

theorem handle_spec (isOpen : m.Open) (msg : HostPortControlMessage) (answers : Answers P) :
    (m.handle msg answers).Yields fun handled => (handled.err = none → handled.mgr.Open) ∧
      handled.statuses.map Status.isOK =
        if m.deleteFails msg answers then [false, true] else [m.succeeds msg answers] := by
  unfold handle deleteFails succeeds
  cases msg.create with
  | true =>
    refine .pure ⟨fun _ => isOpen.createPort, ?_⟩
    cases (m.createPort msg answers).2 <;> rfl
  | false =>
    cases found : m.hostifs.lookup msg.portId with
    | none => exact .pure ⟨fun _ => isOpen, rfl⟩
    | some p =>
      obtain ⟨cancelled, removed⟩ := isOpen.remove found
      simp only [Bool.false_eq_true, if_false, cancelled, Outcome.ok_bind]
      cases answers.delete with
      | none => exact .pure ⟨fun _ => removed, rfl⟩
      | some err =>
        cases answers.send 0 with
        | none => exact .pure ⟨fun _ => removed, rfl⟩
        | some sendErr => exact .pure ⟨by rintro ⟨⟩, rfl⟩

theorem oneStatusEach_cons {first : Answered} {log : List Answered} {fails : Bool}
    (own : first.statuses.map Status.isOK = if fails then [false, true] else [first.succeeded])
    (enough : log.length ≤ (log.flatMap Answered.statuses).length) :
    OneStatusEach (first :: log) ↔ fails = false ∧ OneStatusEach log := by
  rw [OneStatusEach, List.flatMap_cons, List.map_append, own, List.map_cons]
  cases fails with
  | false => simp [OneStatusEach]
  | true =>
    refine iff_of_false (fun same => ?_) (by rintro ⟨⟨⟩, -⟩)
    have lengths := congrArg List.length same
    simp at lengths
    simp at enough
    omega

theorem managePorts_spec (isOpen : m.Open) (received : List (HostPortControlMessage × Answers P)) :
    (m.managePorts received).Yields fun log =>
      log.length ≤ (log.flatMap Answered.statuses).length ∧
        (OneStatusEach log ↔ m.NoDeleteFails received) := by
  induction received generalizing m with
  | nil => exact .pure ⟨Nat.le_refl _, iff_of_true rfl trivial⟩
  | cons step rest ih =>
    obtain ⟨msg, answers⟩ := step
    obtain ⟨handled, done, isOpen', own⟩ := handle_spec isOpen msg answers
    have some (log : List Answered) (enough : log.length ≤ (log.flatMap Answered.statuses).length) :
        (Answered.mk (m.succeeds msg answers) handled.statuses :: log).length ≤
          ((Answered.mk (m.succeeds msg answers) handled.statuses :: log).flatMap
            Answered.statuses).length := by
      have count := congrArg List.length own
      rw [List.length_map] at count
      have atLeast : 1 ≤ handled.statuses.length := by
        rw [count]
        split <;> simp
      simp only [List.flatMap_cons, List.length_append, List.length_cons]
      omega
    unfold managePorts
    rw [done, Outcome.ok_bind]
    cases isErr : handled.err with
    | some err =>
      refine .pure ⟨some [] (Nat.le_refl _), ?_⟩
      rw [oneStatusEach_cons own (Nat.le_refl _), NoDeleteFails]
      refine and_congr_right fun _ => iff_of_true rfl ?_
      intro handled' done' goesOn
      cases done.symm.trans done'
      cases isErr.symm.trans goesOn
    | none =>
      apply (ih (isOpen' isErr)).bind
      rintro log ⟨enough, same⟩
      refine .pure ⟨some log enough, ?_⟩
      rw [oneStatusEach_cons own enough, same, NoDeleteFails]
      refine and_congr_right fun _ => ?_
      constructor
      · intro rest' handled' done' _
        cases done.symm.trans done'
        exact rest'
      · intro all
        exact all handled done isErr

theorem one_status_each_iff (received : List (HostPortControlMessage × Answers P)) :
    ∃ log, (new : PacketIOMgr P).managePorts received = .ok log ∧
      (OneStatusEach log ↔ (new : PacketIOMgr P).NoDeleteFails received) := by
  obtain ⟨log, done, -, same⟩ := managePorts_spec new_open received
  exact ⟨log, done, same⟩

def failedDelete : List (HostPortControlMessage × Answers Unit) :=
  [(⟨7, 1, true, .netdev "eth0"⟩, ⟨.ok ((), 3), none, fun _ => none⟩),
    (⟨7, 0, false, .unset⟩, ⟨.error "", some "device busy", fun _ => none⟩)]

theorem failed_delete_two_statuses :
    ∃ log, (new : PacketIOMgr Unit).managePorts failedDelete = .ok log ∧
      log.flatMap Answered.statuses = [⟨.ok, ""⟩, ⟨.internal, "device busy"⟩, ⟨.ok, ""⟩] ∧
      ¬ OneStatusEach log := by
  refine ⟨_, rfl, rfl, ?_⟩
  unfold OneStatusEach
  decide

end PacketIOMgr

end Lemming.PacketIo
