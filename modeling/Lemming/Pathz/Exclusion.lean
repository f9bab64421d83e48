import Lemming.Acl.Trie

set_option autoImplicit false

namespace Lemming.Pathz

open Shared Acl

structure PolicyData where
  trie : Trie
  rawPolicy : Policy
  version : Text
  createdOn : UInt64

inductive Code where
  | unavailable
  | failedPrecondition
  | invalidArgument
deriving DecidableEq

inductive Result where
  | ok
  | status (code : Code) (message : String)
  | transport
  | panic

inductive Message where
  | upload (policy : Policy) (version : Text) (createdOn : UInt64)
  | finalize
  | other
  | failure

inductive Point where
  | load
  | store
  | recv
  | write (data : PolicyData)
  | confirmUpload
  | activate
  | confirmFinalize
  | release (result : Result)
  | ended (result : Result)

structure Stream where
  point : Point
  receivedUploadReq : Bool
  -- The policy the stream wrote into the sandbox; the code does not keep it.
  uploaded : Option PolicyData

structure Server where
  rotationInProgress : Bool
  sandbox : Option PolicyData
  active : Option PolicyData
  streams : Nat → Stream

def Stream.initial : Stream := ⟨.load, false, none⟩

def Server.initial : Server := ⟨false, none, none, fun _ => .initial⟩

inductive Action where
  | load
  | store
  | recv (message : Message)
  | write
  | send (delivered : Bool)
  | activate
  | release

structure Event where
  stream : Nat
  action : Action

def Server.setStream (server : Server) (i : Nat) (stream : Stream) : Server :=
  { server with streams := Function.update server.streams i stream }

section Step

variable (pathText : Path → String)

def Stream.receive (stream : Stream) : Message → Stream
  | .failure => { stream with point := .release .transport }
  | .other => { stream with point := .recv }
  | .upload policy version createdOn =>
    if stream.receivedUploadReq then
      { stream with
        point := .release (.status .failedPrecondition
          "only a single upload request can be sent per Rotate RPC") }
    else
      let stream := { stream with receivedUploadReq := true }
      match fromPolicy pathText policy with
      | .ok trie => { stream with point := .write ⟨trie, policy, version, createdOn⟩ }
      | .error message =>
        { stream with point := .release (.status .invalidArgument ("invalid policy: " ++ message)) }
      | .panic => { stream with point := .release .panic }
      | .diverge => { stream with point := .release .panic }
  | .finalize =>
    if !stream.receivedUploadReq then
      { stream with
        point := .release (.status .failedPrecondition
          "finalize rotation called before upload request") }
    else { stream with point := .activate }

def Server.step (server : Server) (event : Event) : Option Server :=
  let i := event.stream
  let stream := server.streams i
  match stream.point, event.action with
  | .load, .load =>
    if server.rotationInProgress then
      some (server.setStream i { stream with
        point := .ended (.status .unavailable "another rotation is already in progress") })
    else some (server.setStream i { stream with point := .store })
  | .store, .store =>
    some ({ server with rotationInProgress := true }.setStream i
      { stream with point := .recv, receivedUploadReq := false })
  | .recv, .recv message => some (server.setStream i (stream.receive pathText message))
  | .write data, .write =>
    some ({ server with sandbox := some data }.setStream i
      { stream with point := .confirmUpload, uploaded := some data })
  | .confirmUpload, .send delivered =>
    some (server.setStream i
      { stream with point := if delivered then .recv else .release .transport })
  -- Both locks are held, so the two assignments are one step.
  | .activate, .activate =>
    some ({ server with active := server.sandbox, sandbox := none }.setStream i
      { stream with point := .confirmFinalize })
  | .confirmFinalize, .send delivered =>
    some (server.setStream i
      { stream with point := .release (if delivered then .ok else .transport) })
  | .release result, .release =>
    some ({ server with rotationInProgress := false }.setStream i
      { stream with point := .ended result })
  | _, _ => none

def Server.run (server : Server) (events : List Event) : Option Server :=
  events.foldlM (Server.step pathText) server

end Step

def Point.past : Point → Prop
  | .load => False
  | .ended _ => False
  | _ => True

def Server.Exclusive (server : Server) : Prop :=
  ∀ i j, (server.streams i).point.past → (server.streams j).point.past → i = j

def Activates (before : Server) (event : Event) (after : Server) : Prop :=
  (before.streams event.stream).point = .activate → event.action = .activate →
    ∃ data, (before.streams event.stream).uploaded = some data ∧ after.active = some data

def Persists (before after : Server) : Prop :=
  before.active.isSome = true → after.active.isSome = true

section Run

variable (pathText : Path → String)

def RotationHolds : Server → List Event → Prop
  | server, [] => server.Exclusive
  | server, event :: rest =>
    server.Exclusive ∧ ∀ after, server.step pathText event = some after →
      Activates server event after ∧ Persists server after ∧ RotationHolds after rest

-- No stream looks at the flag while another one has seen it clear and has not set it yet.
def LoadsApart : Server → List Event → Prop
  | _, [] => True
  | server, event :: rest =>
    ∀ after, server.step pathText event = some after →
      ((server.streams event.stream).point = .load →
        ∀ j, (server.streams j).point ≠ .store) ∧ LoadsApart after rest

end Run

variable {pathText : Path → String}

inductive Transition (pathText : Path → String) (server : Server) (i : Nat) : Server → Prop where
  | refuse (point : (server.streams i).point = .load) (busy : server.rotationInProgress = true)
      (result : Result) :
      Transition pathText server i
        (server.setStream i { server.streams i with point := .ended result })
  | load (point : (server.streams i).point = .load) (free : server.rotationInProgress = false) :
      Transition pathText server i (server.setStream i { server.streams i with point := .store })
  | store (point : (server.streams i).point = .store) :
      Transition pathText server i
        ({ server with rotationInProgress := true }.setStream i
          { server.streams i with point := .recv, receivedUploadReq := false })
  | recv (point : (server.streams i).point = .recv) (message : Message) :
      Transition pathText server i
        (server.setStream i ((server.streams i).receive pathText message))
  | write (data : PolicyData) (point : (server.streams i).point = .write data) :
      Transition pathText server i
        ({ server with sandbox := some data }.setStream i
          { server.streams i with point := .confirmUpload, uploaded := some data })
  | confirmUpload (point : (server.streams i).point = .confirmUpload) (delivered : Bool) :
      Transition pathText server i
        (server.setStream i { server.streams i with
          point := if delivered then .recv else .release .transport })
  | activate (point : (server.streams i).point = .activate) :
      Transition pathText server i
        ({ server with active := server.sandbox, sandbox := none }.setStream i
          { server.streams i with point := .confirmFinalize })
  | confirmFinalize (point : (server.streams i).point = .confirmFinalize) (result : Result) :
      Transition pathText server i
        (server.setStream i { server.streams i with point := .release result })
  | release (result : Result) (point : (server.streams i).point = .release result) :
      Transition pathText server i
        ({ server with rotationInProgress := false }.setStream i
          { server.streams i with point := .ended result })

variable {server after : Server}

theorem step_transition {event : Event} (taken : server.step pathText event = some after) :
    Transition pathText server event.stream after := by
  rw [Server.step] at taken
  split at taken
  case h_1 point _ =>
    split at taken
    case isTrue busy =>
      cases taken
      exact .refuse point busy _
    case isFalse free =>
      cases taken
      exact .load point (by simpa using free)
  case h_2 point _ =>
    cases taken
    exact .store point
  case h_3 message point _ =>
    cases taken
    exact .recv point message
  case h_4 data point _ =>
    cases taken
    exact .write data point
  case h_5 delivered point _ =>
    cases taken
    exact .confirmUpload point delivered
  case h_6 point _ =>
    cases taken
    exact .activate point
  case h_7 delivered point _ =>
    cases taken
    exact .confirmFinalize point _
  case h_8 result point _ =>
    cases taken
    exact .release result point
  case h_9 => cases taken

def Point.holdsFlag : Point → Prop
  | .load => False
  | .store => False
  | .ended _ => False
  | _ => True

theorem Point.past_iff (point : Point) : point.past ↔ point = .store ∨ point.holdsFlag := by
  cases point <;> simp [past, holdsFlag]

def Stream.pending (stream : Stream) : Prop :=
  stream.point = .confirmUpload ∨ stream.point = .activate ∨
    stream.point = .recv ∧ stream.receivedUploadReq = true

variable {stream : Stream}

theorem Stream.pending.past (pending : stream.pending) : stream.point.past := by
  rcases pending with point | point | ⟨point, -⟩ <;> rw [point] <;> trivial

structure Invariant (server : Server) : Prop where
  exclusive : server.Exclusive
  flag : server.rotationInProgress = true ↔ ∃ i, (server.streams i).point.holdsFlag
  sandbox : ∀ i, (server.streams i).pending →
    ∃ data, (server.streams i).uploaded = some data ∧ server.sandbox = some data

theorem Invariant.initial : Invariant Server.initial where
  exclusive := fun _ _ past => past.elim
  flag := by simp [Server.initial, Stream.initial, Point.holdsFlag]
  sandbox := by
    intro i pending
    rcases pending with point | point | ⟨point, -⟩ <;> cases point

@[simp] theorem setStream_self (server : Server) (i : Nat) (stream : Stream) :
    (server.setStream i stream).streams i = stream := by
  simp [Server.setStream]

theorem setStream_other (server : Server) {i k : Nat} (other : k ≠ i) (stream : Stream) :
    (server.setStream i stream).streams k = server.streams k := by
  simp [Server.setStream, other]

theorem Point.holdsFlag.past {point : Point} (keeps : point.holdsFlag) : point.past :=
  (Point.past_iff point).mpr (Or.inr keeps)

theorem Invariant.of_only {base : Server} {i : Nat}
    (only : ∀ k, k ≠ i → ¬ (base.streams k).point.past)
    (flag : base.rotationInProgress = true ↔ stream.point.holdsFlag)
    (sandbox : stream.pending → ∃ data, stream.uploaded = some data ∧ base.sandbox = some data) :
    Invariant (base.setStream i stream) := by
  have isI : ∀ k, ((base.setStream i stream).streams k).point.past → k = i := by
    intro k past
    by_contra other
    rw [setStream_other base other] at past
    exact only k other past
  refine ⟨fun a b aPast bPast => (isI a aPast).trans (isI b bPast).symm,
    flag.trans ⟨fun keeps => ⟨i, by rwa [setStream_self]⟩, ?_⟩, fun k pending => ?_⟩
  · rintro ⟨k, keeps⟩
    rwa [isI k keeps.past, setStream_self] at keeps
  · obtain rfl := isI k pending.past
    rw [setStream_self] at pending ⊢
    exact sandbox pending

theorem receive_holdsFlag (stream : Stream) (message : Message) :
    (stream.receive pathText message).point.holdsFlag := by
  cases message with
  | upload policy version createdOn =>
    rw [Stream.receive]
    split
    · trivial
    · split <;> trivial
  | finalize =>
    rw [Stream.receive]
    split <;> trivial
  | other => trivial
  | failure => trivial

theorem receive_pending {message : Message} (point : stream.point = .recv)
    (pending : (stream.receive pathText message).pending) :
    stream.pending ∧ (stream.receive pathText message).uploaded = stream.uploaded := by
  cases message with
  | upload policy version createdOn =>
    rw [Stream.receive] at pending
    split at pending
    · simp [Stream.pending] at pending
    · split at pending <;> simp [Stream.pending] at pending
  | finalize =>
    rw [Stream.receive] at pending ⊢
    split at pending
    · simp [Stream.pending] at pending
    case isFalse received =>
      rw [if_neg received]
      exact ⟨Or.inr (Or.inr ⟨point, by simpa using received⟩), rfl⟩
  | other =>
    simp only [Stream.receive, Stream.pending, reduceCtorEq, false_or, true_and] at pending
    exact ⟨Or.inr (Or.inr ⟨point, pending⟩), rfl⟩
  | failure => simp [Stream.receive, Stream.pending] at pending

theorem Invariant.step (holds : Invariant server) {i : Nat}
    (taken : Transition pathText server i after)
    (apart : (server.streams i).point = .load → ∀ j, (server.streams j).point ≠ .store) :
    Invariant after := by
  have only (past : (server.streams i).point.past) (k : Nat) (other : k ≠ i) :
      ¬ (server.streams k).point.past := fun pastToo => other (holds.exclusive k i pastToo past)
  have raised (keeps : (server.streams i).point.holdsFlag) :
      (∀ k, k ≠ i → ¬ (server.streams k).point.past) ∧ server.rotationInProgress = true :=
    ⟨only keeps.past, holds.flag.mpr ⟨i, keeps⟩⟩
  cases taken with
  | refuse point busy result =>
    -- The stream was not past the check and is not now.
    have same : ∀ k, (((server.setStream i { server.streams i with point := .ended result }).streams
        k).point.past ↔ (server.streams k).point.past) := by
      intro k
      by_cases isI : k = i
      · subst isI
        simp [point, Point.past]
      · rw [setStream_other server isI]
    refine ⟨?_, ?_, ?_⟩
    · intro a b aPast bPast
      exact holds.exclusive a b ((same a).mp aPast) ((same b).mp bPast)
    · refine iff_of_true busy ?_
      obtain ⟨k, keeps⟩ := holds.flag.mp busy
      have isNot : k ≠ i := by
        rintro rfl
        rw [point] at keeps
        exact keeps
      exact ⟨k, by rw [setStream_other server isNot]; exact keeps⟩
    · intro k pending
      have isNot : k ≠ i := by
        rintro rfl
        rw [setStream_self] at pending
        simp [Stream.pending] at pending
      rw [setStream_other server isNot] at pending ⊢
      exact holds.sandbox k pending
  | load point free =>
    -- Nobody holds the flag and nobody is about to set it, so nobody is past the check.
    have nobody : ∀ k, ¬ (server.streams k).point.past := by
      intro k past
      rcases (Point.past_iff _).mp past with store | keeps
      · exact apart point k store
      · have busy := holds.flag.mpr ⟨k, keeps⟩
        rw [free] at busy
        cases busy
    refine .of_only (fun k _ => nobody k) (iff_of_false (by simp [free]) id) fun pending => ?_
    simp [Stream.pending] at pending
  | store point =>
    refine .of_only (only (by rw [point]; trivial)) (iff_of_true rfl trivial) fun pending => ?_
    simp [Stream.pending] at pending
  | recv point message =>
    obtain ⟨only, flag⟩ := raised (by rw [point]; trivial)
    refine .of_only only (iff_of_true flag (receive_holdsFlag _ message)) fun pending => ?_
    obtain ⟨before, kept⟩ := receive_pending point pending
    rw [kept]
    exact holds.sandbox i before
  | write data point =>
    obtain ⟨only, flag⟩ := raised (by rw [point]; trivial)
    exact .of_only only (iff_of_true flag trivial) fun _ => ⟨data, rfl, rfl⟩
  | confirmUpload point delivered =>
    obtain ⟨only, flag⟩ := raised (by rw [point]; trivial)
    refine .of_only only (iff_of_true flag ?_) fun _ => holds.sandbox i (Or.inl point)
    cases delivered <;> trivial
  | activate point | confirmFinalize point result =>
    obtain ⟨only, flag⟩ := raised (by rw [point]; trivial)
    refine .of_only only (iff_of_true flag trivial) fun pending => ?_
    simp [Stream.pending] at pending
  | release result point =>
    -- The only stream past the check leaves.
    refine .of_only (only (by rw [point]; trivial)) (iff_of_false nofun id) fun pending => ?_
    simp [Stream.pending] at pending

theorem Invariant.activates (holds : Invariant server) {event : Event}
    (taken : server.step pathText event = some after) :
    Activates server event after ∧ Persists server after := by
  have kept : after.active = server.active ∨
      (server.streams event.stream).point = .activate ∧ after.active = server.sandbox := by
    cases step_transition taken with
    | activate point => exact Or.inr ⟨point, rfl⟩
    | _ => exact Or.inl rfl
  have own : (server.streams event.stream).point = .activate →
      ∃ data, (server.streams event.stream).uploaded = some data ∧ server.sandbox = some data :=
    fun point => holds.sandbox _ (Or.inr (Or.inl point))
  constructor
  · intro point _
    obtain ⟨data, uploaded, sandbox⟩ := own point
    refine ⟨data, uploaded, ?_⟩
    generalize step_transition taken = transition
    cases transition with
    | activate => exact sandbox
    | _ => simp_all
  · intro wasActive
    rcases kept with same | ⟨point, same⟩
    · rw [same]
      exact wasActive
    · obtain ⟨data, -, sandbox⟩ := own point
      rw [same, sandbox]
      rfl

theorem Invariant.not_exclusive (holds : Invariant server) {i j : Nat}
    (taken : Transition pathText server i after) (load : (server.streams i).point = .load)
    (store : (server.streams j).point = .store) : ¬ after.Exclusive := by
  have other : j ≠ i := by
    rintro rfl
    rw [load] at store
    cases store
  -- Stream `j` is the only one past the check, so the flag is still clear.
  have clear : server.rotationInProgress = false := by
    rw [Bool.eq_false_iff]
    intro busy
    obtain ⟨k, keeps⟩ := holds.flag.mp busy
    have same : k = j := holds.exclusive k j keeps.past
      ((Point.past_iff _).mpr (Or.inl store))
    rw [same, store] at keeps
    exact keeps
  intro exclusive
  cases taken with
  | refuse point busy =>
    rw [clear] at busy
    cases busy
  | load point free =>
    refine other (exclusive j i ?_ ?_)
    · rw [setStream_other server other, store]
      trivial
    · rw [setStream_self]
      trivial
  | _ => simp_all

theorem rotationHolds_iff_of_invariant (events : List Event) :
    ∀ server : Server, Invariant server →
      (RotationHolds pathText server events ↔ LoadsApart pathText server events) := by
  induction events with
  | nil =>
    intro server holds
    exact iff_of_true holds.exclusive trivial
  | cons event rest ih =>
    intro server holds
    constructor
    · rintro ⟨-, next⟩ after taken
      obtain ⟨-, -, later⟩ := next after taken
      have apart : (server.streams event.stream).point = .load →
          ∀ j, (server.streams j).point ≠ .store := by
        intro load j store
        refine holds.not_exclusive (step_transition taken) load store ?_
        cases rest with
        | nil => exact later
        | cons _ _ => exact later.1
      exact ⟨apart, (ih after (holds.step (step_transition taken) apart)).mp later⟩
    · intro apart
      refine ⟨holds.exclusive, fun after taken => ?_⟩
      obtain ⟨here, later⟩ := apart after taken
      obtain ⟨activates, persists⟩ := holds.activates taken
      exact ⟨activates, persists, (ih after (holds.step (step_transition taken) here)).mpr later⟩

theorem rotation_holds_iff (events : List Event) :
    RotationHolds pathText Server.initial events ↔ LoadsApart pathText Server.initial events :=
  rotationHolds_iff_of_invariant events _ Invariant.initial

def uploading (i : Nat) (version : String) : List Event :=
  [⟨i, .recv (.upload ⟨[], []⟩ version.toList 0)⟩, ⟨i, .write⟩, ⟨i, .send true⟩]

def finalizing (i : Nat) : List Event :=
  [⟨i, .recv .finalize⟩, ⟨i, .activate⟩, ⟨i, .send true⟩, ⟨i, .release⟩]

def interleaved : List Event :=
  [⟨0, .load⟩, ⟨1, .load⟩, ⟨0, .store⟩, ⟨1, .store⟩] ++ uploading 0 "first" ++
    uploading 1 "second" ++ finalizing 0 ++ finalizing 1

-- Both streams get past the check, the first one activates the policy of the second, and the second one
-- leaves the server without a policy.
theorem rotation_interleaved :
    ¬ RotationHolds (fun _ => "") Server.initial interleaved ∧
    (Server.initial.run (fun _ => "") (interleaved.take 14)).map (fun server =>
      ((server.streams 0).uploaded.map (·.version), server.active.map (·.version))) =
        some (some "first".toList, some "second".toList) ∧
    (Server.initial.run (fun _ => "") interleaved).map (fun server => server.active.isSome) =
      some false := by
  refine ⟨fun holds => ?_, by decide +kernel, by decide +kernel⟩
  have afterLoads := ((holds.2 _ rfl).2.2.2 _ rfl).2.2.1
  exact absurd (afterLoads 0 1 trivial trivial) (by decide)

end Lemming.Pathz
