import Lemming.Shared.Interleaving

set_option autoImplicit false

namespace Lemming.Gnoi

open Shared Shared.Interleaving

inductive Response where
  | ok
  | alreadyExists (message : String)
  | internal (message : String)

structure System where
  hasPendingReboot : Bool
  -- The signals in the channel `cancelReboot`, which has room for one.
  cancelReboot : Nat
  -- Goroutines of `Reboot`: in the select, at the send on `cancelRebootFinish`, and after the delay.
  waiting : Nat
  cancelled : Nat
  expired : Nat
  -- Calls of `CancelReboot`: at the send of the signal, in the loop, at the receive that cleans up, and
  -- about to reset the flag.
  signalling : Nat
  polling : Nat
  draining : Nat
  resetting : Nat

namespace System

def new : System := ⟨false, 0, 0, 0, 0, 0, 0, 0, 0⟩

def reboot (s : System) (powerup : Bool) (delay : UInt64) (device : Option String) :
    System × Response :=
  if powerup then (s, .ok)
  else if s.hasPendingReboot then (s, .alreadyExists "reboot already pending")
  else if delay = 0 then
    match device with
    | some err => (s, .internal err)
    | none => (s, .ok)
  else ({ s with hasPendingReboot := true, waiting := s.waiting + 1 }, .ok)

def startCancel (s : System) : System :=
  if s.hasPendingReboot then { s with signalling := s.signalling + 1 } else s

inductive Action where
  | reboot (powerup : Bool) (delay : UInt64) (device : Option String)
  | startCancel
  | signal
  | takeSignal
  | expire
  | clear
  | finish
  | reset
  | poll
  | drain

def step (s : System) : Action → Option System
  | .reboot powerup delay device => some (s.reboot powerup delay device).1
  | .startCancel => some s.startCancel
  | .signal =>
    if 0 < s.signalling ∧ s.cancelReboot = 0 then
      some { s with
        signalling := s.signalling - 1, polling := s.polling + 1, cancelReboot := 1 }
    else none
  | .takeSignal =>
    if 0 < s.waiting ∧ 0 < s.cancelReboot then
      some { s with
        waiting := s.waiting - 1, cancelled := s.cancelled + 1, cancelReboot := s.cancelReboot - 1 }
    else none
  | .expire =>
    if 0 < s.waiting then some { s with waiting := s.waiting - 1, expired := s.expired + 1 } else none
  | .clear =>
    if 0 < s.expired then some { s with expired := s.expired - 1, hasPendingReboot := false }
    else none
  | .finish =>
    if 0 < s.cancelled ∧ 0 < s.polling then
      some { s with
        cancelled := s.cancelled - 1, polling := s.polling - 1, resetting := s.resetting + 1 }
    else none
  | .reset =>
    if 0 < s.resetting then some { s with resetting := s.resetting - 1, hasPendingReboot := false }
    else none
  | .poll =>
    if 0 < s.polling ∧ s.hasPendingReboot = false then
      some { s with polling := s.polling - 1, draining := s.draining + 1 }
    else none
  | .drain =>
    if 0 < s.draining ∧ 0 < s.cancelReboot then
      some { s with draining := s.draining - 1, cancelReboot := s.cancelReboot - 1 }
    else none

def Action.internal : Action → Prop
  | .reboot _ _ _ => False
  | .startCancel => False
  | _ => True

def accepts (s : System) : Action → Bool
  | .reboot powerup delay _ => !powerup && !s.hasPendingReboot && delay != 0
  | _ => false

structure Consistent (s : System) : Prop where
  room : s.cancelReboot ≤ 1
  signals : s.polling + s.draining = s.cancelReboot + s.cancelled
  pending : s.waiting + s.cancelled + s.expired + s.resetting = if s.hasPendingReboot then 1 else 0
  one : s.draining ≤ 1

def Attended (s : System) : Prop :=
  0 < s.waiting + s.cancelled → s.draining = 0 ∨ 0 < s.signalling + s.polling

theorem new_consistent : new.Consistent := ⟨by decide, rfl, rfl, by decide⟩

theorem new_attended : new.Attended := fun running => absurd running (by decide)

-- No delayed reboot is accepted while a call is about to clean up its signal, unless another call has
-- still to send one.
def Calm (s : System) (action : Action) : Prop :=
  s.accepts action = true → s.draining = 0 ∨ 0 < s.signalling

variable {s t : System} {action : Action}

theorem reboot_cases (s : System) (powerup : Bool) (delay : UInt64) (device : Option String) :
    ((s.reboot powerup delay device).1 = s ∧ s.accepts (.reboot powerup delay device) = false) ∨
      (s.hasPendingReboot = false ∧ s.accepts (.reboot powerup delay device) = true ∧
        (s.reboot powerup delay device).1 =
          { s with hasPendingReboot := true, waiting := s.waiting + 1 }) := by
  unfold reboot accepts
  cases powerup with
  | true => exact Or.inl ⟨rfl, rfl⟩
  | false =>
    cases isPending : s.hasPendingReboot with
    | true => exact Or.inl ⟨rfl, rfl⟩
    | false =>
      by_cases immediate : delay = 0
      · left
        simp only [immediate]
        cases device <;> exact ⟨rfl, rfl⟩
      · right
        simp [immediate]

theorem Consistent.step (consistent : s.Consistent) (goes : s.step action = some t) :
    t.Consistent := by
  obtain ⟨room, signals, pending, one⟩ := consistent
  cases action with
  | reboot powerup delay device =>
    cases goes
    rcases reboot_cases s powerup delay device with ⟨same, -⟩ | ⟨idle, -, accepted⟩
    · rw [same]
      exact ⟨room, signals, pending, one⟩
    · rw [accepted]
      rw [idle] at pending
      refine ⟨room, signals, ?_, one⟩
      simp only [Bool.false_eq_true, if_false, if_true] at pending ⊢
      omega
  | startCancel =>
    cases goes
    unfold startCancel
    split <;> exact ⟨room, signals, pending, one⟩
  | poll =>
    obtain ⟨enabled, ⟨⟩⟩ := Option.ite_none_right_eq_some.mp goes
    -- Without a pending reboot no goroutine is there, so the signals are at most one.
    simp only [enabled.2, Bool.false_eq_true, if_false] at pending
    refine ⟨room, ?_, ?_, ?_⟩ <;> simp only [enabled.2, Bool.false_eq_true, if_false] <;> omega
  | clear | reset =>
    obtain ⟨enabled, ⟨⟩⟩ := Option.ite_none_right_eq_some.mp goes
    refine ⟨room, signals, ?_, one⟩
    simp only [Bool.false_eq_true, if_false]
    split at pending <;> omega
  | _ =>
    obtain ⟨enabled, ⟨⟩⟩ := Option.ite_none_right_eq_some.mp goes
    refine ⟨?_, ?_, ?_, ?_⟩ <;> simp only <;> omega

theorem Attended.step (consistent : s.Consistent) (attended : s.Attended) (calm : s.Calm action)
    (goes : s.step action = some t) : t.Attended := by
  obtain ⟨room, signals, pending, one⟩ := consistent
  unfold Attended at attended ⊢
  cases action with
  | reboot powerup delay device =>
    cases goes
    rcases reboot_cases s powerup delay device with ⟨same, -⟩ | ⟨-, accepts, accepted⟩
    · rw [same]
      exact attended
    · rw [accepted]
      intro _
      have attends := calm accepts
      simp only
      omega
  | startCancel =>
    cases goes
    unfold startCancel
    split
    · simp only
      omega
    · exact attended
  | poll =>
    obtain ⟨enabled, ⟨⟩⟩ := Option.ite_none_right_eq_some.mp goes
    simp only [enabled.2, Bool.false_eq_true, if_false] at pending
    simp only
    omega
  | finish =>
    obtain ⟨enabled, ⟨⟩⟩ := Option.ite_none_right_eq_some.mp goes
    simp only
    split at pending <;> omega
  | _ =>
    obtain ⟨enabled, ⟨⟩⟩ := Option.ite_none_right_eq_some.mp goes
    simp only
    omega

def rank (s : System) : Nat :=
  4 * s.signalling + 3 * s.polling + 2 * s.draining + s.resetting +
    2 * s.waiting + s.cancelled + s.expired

theorem rank_lt (internal : action.internal) (goes : s.step action = some t) : t.rank < s.rank := by
  cases action with
  | reboot powerup delay device | startCancel => exact internal.elim
  | _ =>
    obtain ⟨enabled, ⟨⟩⟩ := Option.ite_none_right_eq_some.mp goes
    simp only [rank]
    omega

def Finished (s : System) : Prop :=
  s.signalling + s.polling + s.draining + s.resetting = 0 ∧ s.waiting + s.cancelled + s.expired = 0

-- Without new requests everything comes to rest, and at rest nothing is blocked. Whenever no call is in
-- progress, the channels are empty and the flag says whether there is a delayed reboot: it waits for its
-- delay or a cancel, or its delay is over and it is about to clear the flag.
structure Free (s : System) : Prop where
  settles : ∀ more t, (∀ action ∈ more, Action.internal action) → run System.step s more = some t →
    more.length ≤ s.rank
  finishes : AtRest System.step Action.internal s → s.Finished
  idle : s.signalling + s.polling + s.draining + s.resetting = 0 →
    s.cancelReboot = 0 ∧ s.cancelled = 0 ∧ s.waiting + s.expired = if s.hasPendingReboot then 1 else 0

theorem not_enabled {P : Prop} [Decidable P] (rest : AtRest System.step Action.internal s)
    (internal : action.internal) (enabled : s.step action = if P then some t else none) : ¬ P := by
  intro holds
  have none := rest action internal
  rw [enabled, if_pos holds] at none
  cases none

theorem Consistent.finishes (consistent : s.Consistent) (attended : s.Attended)
    (rest : AtRest System.step Action.internal s) : s.Finished := by
  obtain ⟨room, signals, pending, one⟩ := consistent
  have signal := @not_enabled s _ .signal _ _ rest trivial rfl
  have expire := @not_enabled s _ .expire _ _ rest trivial rfl
  have clear := @not_enabled s _ .clear _ _ rest trivial rfl
  have finish := @not_enabled s _ .finish _ _ rest trivial rfl
  have reset := @not_enabled s _ .reset _ _ rest trivial rfl
  have poll := @not_enabled s _ .poll _ _ rest trivial rfl
  have drain := @not_enabled s _ .drain _ _ rest trivial rfl
  -- A goroutine at its send would have a call to attend to it.
  have none : s.cancelled = 0 := by
    unfold Attended at attended
    omega
  have notPending : s.hasPendingReboot = false := by
    cases isPending : s.hasPendingReboot with
    | false => rfl
    | true =>
      rw [isPending] at pending
      simp only [if_true] at pending
      omega
  have noPolling : s.polling = 0 := by
    by_contra polls
    exact poll ⟨by omega, notPending⟩
  unfold Finished
  omega

theorem Consistent.free (consistent : s.Consistent) (attended : s.Attended) : s.Free where
  settles := by
    intro more t inside ends
    have length := length_le_rank (fun s a t internal goes => rank_lt internal goes) inside ends
    omega
  finishes := consistent.finishes attended
  idle := by
    intro returned
    obtain ⟨room, signals, pending, one⟩ := consistent
    refine ⟨by omega, by omega, ?_⟩
    rw [← pending]
    omega

theorem Consistent.blocked (consistent : s.Consistent) (accepts : s.accepts action = true)
    (draining : s.draining ≠ 0) (alone : s.signalling = 0) :
    ∃ t u, s.step action = some t ∧ t.step .takeSignal = some u ∧
      AtRest System.step Action.internal u ∧ ¬ u.Finished := by
  cases action with
  | reboot powerup delay device =>
    rcases reboot_cases s powerup delay device with ⟨-, refuses⟩ | ⟨idle, -, accepted⟩
    · cases refuses.symm.trans accepts
    · obtain ⟨room, signals, pending, one⟩ := consistent
      rw [idle] at pending
      simp only [Bool.false_eq_true, if_false] at pending
      have taken : 0 < s.waiting + 1 ∧ 0 < s.cancelReboot := ⟨by omega, by omega⟩
      refine ⟨_, _, congrArg some accepted, if_pos taken, ?_, ?_⟩
      · intro other internal
        cases other with
        | reboot powerup delay device | startCancel => exact internal.elim
        | _ =>
          apply if_neg
          simp only [Bool.true_eq_false, and_false, not_false_eq_true] <;> omega
      · simp only [Finished]
        omega
  | _ => cases accepts

theorem reboot_cancel_free_iff (actions : List Action) :
    (∀ part, part <+: actions → ∀ s, run System.step new part = some s →
      ∀ more t, (∀ action ∈ more, Action.internal action) → run System.step s more = some t →
        t.Free) ↔ Along System.step Calm new actions := by
  have keeps (s : System) (action : Action) (t : System) (holds : s.Consistent ∧ s.Attended)
      (calm : s.Calm action) (goes : s.step action = some t) : t.Consistent ∧ t.Attended :=
    ⟨holds.1.step goes, holds.2.step holds.1 calm goes⟩
  constructor
  · intro free
    by_contra hasty
    obtain ⟨part, action, rest, s, rfl, ends, -, fails⟩ := exists_of_not_along hasty
    have consistent : s.Consistent :=
      run_invariant (fun s a t (holds : s.Consistent) goes => holds.step goes) new_consistent ends
    rw [Calm, Classical.not_imp, not_or] at fails
    obtain ⟨accepts, draining, alone⟩ := fails
    obtain ⟨t, u, goes, takes, atRest, blocked⟩ :=
      consistent.blocked accepts draining (Nat.eq_zero_of_not_pos alone)
    have reached : run System.step new (part ++ [action]) = some t := by
      rw [run_append, ends, Option.bind_some, run, goes]
      rfl
    have isPart : part ++ [action] <+: part ++ action :: rest := ⟨rest, by simp⟩
    have onward : run System.step t [.takeSignal] = some u := by
      rw [run, takes]
      rfl
    have inside : ∀ action ∈ [Action.takeSignal], action.internal := by simp [Action.internal]
    exact blocked ((free _ isPart t reached _ u inside onward).finishes atRest)
  · intro calm part isPart s ends more t inside ends'
    have holds := (calm.of_prefix isPart).invariant keeps ⟨new_consistent, new_attended⟩ ends
    have onward : Along System.step Calm s more := by
      refine .of_forall fun s action member accepts => ?_
      have internal := inside action member
      cases action with
      | reboot powerup delay device => exact internal.elim
      | _ => cases accepts
    obtain ⟨consistent, attended⟩ := onward.invariant keeps holds ends'
    exact consistent.free attended

theorem one_reboot_pending (actions : List Action) :
    Along System.step (fun s _ => s.Consistent) new actions :=
  .of_invariant (fun _ _ _ holds => holds.step) (fun _ _ => id) new_consistent

-- A call finds that the reboot it wanted to cancel has happened. Before it cleans up its signal, a new
-- delayed reboot is accepted, whose goroutine takes the signal.
theorem cancel_and_reboot_blocked :
    ∃ s, run System.step new [.reboot false 5 none, .startCancel, .signal, .expire, .clear, .poll,
        .reboot false 5 none, .takeSignal] = some s ∧
      AtRest System.step Action.internal s ∧ s.draining = 1 ∧ s.cancelled = 1 := by
  refine ⟨_, rfl, ?_, rfl, rfl⟩
  intro action internal
  cases action with
  | reboot powerup delay device | startCancel => exact internal.elim
  | _ => rfl

end System

end Lemming.Gnoi
