import Mathlib.Algebra.Group.Nat.Defs
import Mathlib.Data.List.Nodup
import Lemming.Util.Fifo

set_option autoImplicit false

namespace Lemming.Fwdcontext

open Shared Shared.Interleaving Util

-- A call of `Notify` has its own event, and the event carries the name of the call.
structure Event where
  call : Nat
  sequenceNumber : Nat

-- `called` are the calls so far in the order of the numbers they took, and `numbered` the events of
-- those that stand between the critical section of `Notify` and the one of `Write`.
structure Context where
  nextEventID : Nat
  called : List Nat
  numbered : List Event
  notify : Queue Event

def Context.new (nextEventID : Nat) : Context := ⟨nextEventID, [], [], .new unbounded⟩

inductive Action where
  | number (call : Nat)
  | write (call : Nat)
  | send (call : Nat)
  | serveIn
  | serveOut

namespace Action

def delivers : Action → Prop
  | .serveIn => True
  | .serveOut => True
  | _ => False

def takesNumber : Action → Option Nat
  | .number call => some call
  | _ => none

def handsOver : Action → Option Nat
  | .send call => some call
  | _ => none

end Action

def InOrder (first : Nat) (events : List Event) : Prop :=
  ∀ i event, events[i]? = some event → event.sequenceNumber = first + i

namespace Context

def serveWith (ctx : Context) (action : Queue.Action Event) : Option Context :=
  (ctx.notify.step action).map fun notify => { ctx with notify }

-- The queue stays registered, so that it is not closed. No two calls have the same name.
def step (ctx : Context) : Action → Option Context
  | .number call =>
    if call ∈ ctx.called then none
    else some { ctx with
      nextEventID := (ctx.nextEventID + 1) % 2 ^ 64
      called := ctx.called ++ [call]
      numbered := ctx.numbered ++ [⟨call, ctx.nextEventID⟩] }
  | .write call =>
    match ctx.numbered.find? (·.call = call) with
    | none => none
    | some event =>
      { ctx with numbered := ctx.numbered.filter (·.call ≠ call) }.serveWith (.write event)
  | .send call => ctx.serveWith (.send (ctx.notify.writers.findIdx (·.call = call)))
  | .serveIn => ctx.serveWith .serveIn
  | .serveOut => ctx.serveWith .serveOut

variable {ctx after : Context} {action : Action} {first : Nat}

def Open (ctx : Context) : Prop := ctx.notify.Consistent ∧ ctx.notify.closed = false

theorem Open.serveWith (isOpen : ctx.Open) {action : Queue.Action Event} (stays : action ≠ .close)
    (goes : ctx.serveWith action = some after) : after.Open := by
  obtain ⟨notify, served, rfl⟩ := Option.map_eq_some_iff.mp goes
  have does := (Queue.step_does served).2
  refine ⟨isOpen.1.does ?_ does, ?_⟩
  · cases action with
    | close => exact absurd rfl stays
    | _ => trivial
  · cases does with
    | close => exact absurd rfl stays
    | _ => exact isOpen.2

-- What each action does to the calls and to the events that are under way.
inductive Does (ctx : Context) : Action → Context → Prop where
  | number (call : Nat) (fresh : call ∉ ctx.called) :
    Does ctx (.number call) { ctx with
      nextEventID := (ctx.nextEventID + 1) % 2 ^ 64
      called := ctx.called ++ [call]
      numbered := ctx.numbered ++ [⟨call, ctx.nextEventID⟩] }
  | write (event : Event) (numbered : List Event) (notify : Queue Event)
      (stands : event ∈ ctx.numbered) (others : numbered ⊆ ctx.numbered)
      (writers : notify.writers = ctx.notify.writers ++ [event])
      (accepted : notify.accepted = ctx.notify.accepted) :
    Does ctx (.write event.call) { ctx with numbered, notify }
  | send (event : Event) (notify : Queue Event) (stands : event ∈ ctx.notify.writers)
      (writers : notify.writers ⊆ ctx.notify.writers)
      (accepted : notify.accepted = ctx.notify.accepted ++ [event]) :
    Does ctx (.send event.call) { ctx with notify }
  | deliver (action : Action) (notify : Queue Event) (delivers : action.delivers)
      (writers : notify.writers = ctx.notify.writers)
      (accepted : notify.accepted = ctx.notify.accepted) : Does ctx action { ctx with notify }

theorem step_does (isOpen : ctx.Open) (goes : ctx.step action = some after) :
    after.Open ∧ ctx.Does action after := by
  cases action with
  | number call =>
    rw [Context.step] at goes
    split at goes <;> cases goes
    rename_i fresh
    exact ⟨isOpen, .number call fresh⟩
  | write call =>
    rw [Context.step] at goes
    split at goes
    · cases goes
    · rename_i event found
      refine ⟨Open.serveWith ?_ (by simp) goes, ?_⟩
      · exact isOpen
      obtain ⟨notify, served, rfl⟩ := Option.map_eq_some_iff.mp goes
      obtain rfl : event.call = call := by simpa using List.find?_some found
      cases (Queue.step_does served).2 with
      | write => exact .write event _ _ (List.mem_of_find?_eq_some found) (List.filter_subset_self ..) rfl rfl
  | send call =>
    refine ⟨isOpen.serveWith (by simp) goes, ?_⟩
    obtain ⟨notify, served, rfl⟩ := Option.map_eq_some_iff.mp goes
    cases (Queue.step_does served).2 with
    | sendClosed writer event stands closed => cases isOpen.2.symm.trans closed
    | send writer event stands =>
      obtain ⟨bound, isEvent⟩ := List.getElem?_eq_some_iff.mp stands
      obtain rfl : event.call = call := by
        have found := List.findIdx_getElem (w := bound)
        rw [isEvent] at found
        simpa using found
      exact .send event _ (List.mem_of_getElem? stands) (List.eraseIdx_subset) rfl
  | serveIn | serveOut =>
    refine ⟨isOpen.serveWith (by simp) goes, ?_⟩
    obtain ⟨notify, served, rfl⟩ := Option.map_eq_some_iff.mp goes
    obtain ⟨running, does⟩ := Queue.step_does served
    refine .deliver _ notify trivial ?_ ?_ <;> cases does <;> rfl

-- The number of an event is the place of its call among all calls.
structure Numbered (first : Nat) (ctx : Context) : Prop where
  isOpen : ctx.Open
  distinct : ctx.called.Nodup
  next : ctx.nextEventID = (first + ctx.called.length) % 2 ^ 64
  events : ∀ event ∈ ctx.notify.accepted ++ ctx.notify.writers ++ ctx.numbered,
    event.call ∈ ctx.called ∧ event.sequenceNumber = (first + ctx.called.idxOf event.call) % 2 ^ 64

theorem new_numbered (small : first < 2 ^ 64) : Numbered first (new first) where
  isOpen := ⟨Queue.new_consistent _, rfl⟩
  distinct := List.nodup_nil
  next := (Nat.mod_eq_of_lt small).symm
  events := by simp [new, Queue.new]

theorem Numbered.step (numbered : Numbered first ctx) (goes : ctx.step action = some after) :
    Numbered first after := by
  obtain ⟨isOpen, does⟩ := step_does numbered.isOpen goes
  obtain ⟨-, distinct, next, events⟩ := numbered
  simp only [List.mem_append] at events
  cases does with
  | number call fresh =>
    refine ⟨isOpen, List.nodup_append_comm.mp (List.nodup_cons.mpr ⟨fresh, distinct⟩), ?_,
      fun event mem => ?_⟩
    · rw [List.length_append, next]
      simp [Nat.add_assoc]
    · rw [← List.append_assoc, List.mem_append, List.mem_append, List.mem_append, List.mem_singleton] at mem
      rcases mem with old | rfl
      · obtain ⟨known, isNumber⟩ := events event old
        exact ⟨List.mem_append_left _ known, by rw [isNumber, List.idxOf_append, if_pos known]⟩
      · refine ⟨List.mem_append_right _ List.mem_cons_self, ?_⟩
        rw [next, List.idxOf_append, if_neg fresh, List.idxOf_cons_self, Nat.zero_add]
  | write event numbered notify stands others writers accepted =>
    refine ⟨isOpen, distinct, next, fun other mem => events other ?_⟩
    simp only [writers, accepted, List.mem_append, List.mem_singleton] at mem
    rcases mem with (old | old | rfl) | old
    · exact Or.inl (Or.inl old)
    · exact Or.inl (Or.inr old)
    · exact Or.inr stands
    · exact Or.inr (others old)
  | send event notify stands writers accepted =>
    refine ⟨isOpen, distinct, next, fun other mem => events other ?_⟩
    simp only [accepted, List.mem_append, List.mem_singleton] at mem
    rcases mem with ((old | rfl) | old) | old
    · exact Or.inl (Or.inl old)
    · exact Or.inl (Or.inr stands)
    · exact Or.inl (Or.inr (writers old))
    · exact Or.inr old
  | deliver action notify delivers writers accepted =>
    refine ⟨isOpen, distinct, next, fun other mem => events other ?_⟩
    simpa [writers, accepted, or_assoc] using mem

-- The calls and the events handed over follow the schedule.
theorem run_history {actions : List Action} : ∀ {ctx : Context}, ctx.Open →
    run step ctx actions = some after →
      after.called = ctx.called ++ actions.filterMap Action.takesNumber ∧
      after.notify.accepted.map Event.call =
        ctx.notify.accepted.map Event.call ++ actions.filterMap Action.handsOver := by
  induction actions with
  | nil =>
    rintro ctx - ⟨⟩
    simp
  | cons action rest ih =>
    intro ctx isOpen ends
    obtain ⟨next, goes, ends⟩ := run_cons ends
    obtain ⟨nextOpen, does⟩ := step_does isOpen goes
    obtain ⟨called, accepted⟩ := ih nextOpen ends
    rw [called, accepted]
    cases does with
    | number call fresh => simp [List.filterMap_cons, Action.takesNumber, Action.handsOver]
    | write event numbered notify stands others writers same =>
      simp [List.filterMap_cons, Action.takesNumber, Action.handsOver, same]
    | send event notify stands writers same =>
      simp [List.filterMap_cons, Action.takesNumber, Action.handsOver, same]
    | deliver action notify delivers writers same =>
      cases action with
      | serveIn | serveOut => simp [List.filterMap_cons, Action.takesNumber, Action.handsOver, same]
      | _ => exact delivers.elim

theorem Numbered.inOrder_iff (numbered : Numbered first ctx)
    (room : first + ctx.called.length ≤ 2 ^ 64) :
    InOrder first ctx.notify.accepted ↔ ctx.notify.accepted.map Event.call <+: ctx.called := by
  have number {i : Nat} {event : Event} (isEvent : ctx.notify.accepted[i]? = some event) :
      event.call ∈ ctx.called ∧ event.sequenceNumber = first + ctx.called.idxOf event.call := by
    have ⟨known, isNumber⟩ := numbered.events event (by simp [List.mem_of_getElem? isEvent])
    have bound := List.idxOf_lt_length_of_mem known
    rw [Nat.mod_eq_of_lt (by omega)] at isNumber
    exact ⟨known, isNumber⟩
  rw [List.prefix_iff_getElem?]
  constructor
  · intro inOrder i bound
    rw [List.length_map] at bound
    have isEvent := List.getElem?_eq_getElem bound
    obtain ⟨known, isNumber⟩ := number isEvent
    have place : ctx.called.idxOf ctx.notify.accepted[i].call = i := by
      have here := inOrder i _ isEvent
      omega
    rw [List.getElem_map]
    conv_lhs => rw [← place]
    exact List.getElem?_idxOf known
  · intro same i event isEvent
    obtain ⟨bound, isAt⟩ := List.getElem?_eq_some_iff.mp isEvent
    have here := same i (by rwa [List.length_map])
    rw [List.getElem_map, isAt] at here
    obtain ⟨inside, isCall⟩ := List.getElem?_eq_some_iff.mp here
    rw [(number isEvent).2, ← isCall, numbered.distinct.idxOf_getElem]

theorem delivers_rank_lt (delivers : action.delivers) (goes : ctx.step action = some after) :
    after.notify.rank < ctx.notify.rank := by
  cases action with
  | serveIn | serveOut =>
    obtain ⟨notify, served, rfl⟩ := Option.map_eq_some_iff.mp goes
    obtain ⟨running, does⟩ := Queue.step_does served
    exact does.rank_lt running trivial
  | _ => exact delivers.elim

theorem inOrder_of_prefix {events part : List Event} (inOrder : InOrder first events)
    (isPart : part <+: events) : InOrder first part := by
  obtain ⟨rest, rfl⟩ := isPart
  intro i event isEvent
  refine inOrder i event ?_
  rw [List.getElem?_append_left (List.getElem?_eq_some_iff.mp isEvent).1]
  exact isEvent

-- Delivery hands nothing over.
theorem Open.delivered {more : List Action} (isOpen : ctx.Open) (delivers : ∀ action ∈ more, action.delivers)
    (ends : run step ctx more = some after) :
    after.Open ∧ after.notify.accepted = ctx.notify.accepted := by
  have along : Along step (fun _ action => action.delivers) ctx more := .of_forall fun _ => delivers
  refine along.invariant (I := fun s => s.Open ∧ s.notify.accepted = ctx.notify.accepted)
    (fun s a t holds delivers goes => ?_) ⟨isOpen, rfl⟩ ends
  obtain ⟨isOpen, does⟩ := step_does holds.1 goes
  refine ⟨isOpen, Eq.trans ?_ holds.2⟩
  cases does with
  | deliver action notify _ writers accepted => exact accepted
  | _ => exact delivers.elim

theorem notify_in_order_iff (first : Nat) (actions : List Action) (ctx : Context)
    (ends : run step (new first) actions = some ctx)
    (room : first + (actions.filterMap Action.takesNumber).length < 2 ^ 64) :
    (∀ more after, (∀ action ∈ more, Action.delivers action) → run step ctx more = some after →
      InOrder first after.notify.received) ↔
      actions.filterMap Action.handsOver <+: actions.filterMap Action.takesNumber := by
  have start := @new_numbered first (by omega)
  have numbered : Numbered first ctx := run_invariant (fun s a t holds => holds.step) start ends
  obtain ⟨called, accepted⟩ := run_history start.isOpen ends
  simp only [new, Queue.new, List.nil_append, List.map_nil] at called accepted
  rw [← accepted, ← called, ← numbered.inOrder_iff (by rw [called]; omega)]
  constructor
  · intro inOrder
    -- All that was handed over is delivered by the time the queue comes to rest.
    obtain ⟨more, after, delivers, ends, rest⟩ :=
      exists_rest (fun s a t delivers goes => delivers_rank_lt delivers goes) ctx
    obtain ⟨afterOpen, same⟩ := numbered.isOpen.delivered delivers ends
    have served := afterOpen.1.at_rest afterOpen.2 (Option.map_eq_none_iff.mp (rest .serveIn trivial))
      (Option.map_eq_none_iff.mp (rest .serveOut trivial))
    rw [← same, ← served.2]
    exact inOrder more after delivers ends
  · intro inOrder more after delivers ends
    obtain ⟨afterOpen, same⟩ := numbered.isOpen.delivered delivers ends
    rw [← same] at inOrder
    exact inOrder_of_prefix inOrder afterOpen.1.safe.fifo

-- Two calls cross between their numbers and the queue, but are handed over in their order.
theorem notify_in_order_crossing :
    ∃ ctx, run step (new 0) [.number 7, .number 3, .write 3, .write 7, .send 7, .serveIn, .send 3] =
        some ctx ∧
      ∀ more after, (∀ action ∈ more, Action.delivers action) → run step ctx more = some after →
        InOrder 0 after.notify.received := by
  have ran : run step (new 0)
      [.number 7, .number 3, .write 3, .write 7, .send 7, .serveIn, .send 3] = some _ := rfl
  exact ⟨_, ran, (notify_in_order_iff 0 _ _ ran (by decide)).mpr (by decide)⟩

-- The second of two calls gets to the queue first.
theorem notify_out_of_order :
    (run step (new 0) [.number 0, .number 1, .write 1, .send 1, .serveIn, .serveOut, .serveOut, .serveOut,
      .write 0, .send 0, .serveIn, .serveOut, .serveOut]).map
        (fun ctx => ctx.notify.received.map Event.sequenceNumber) = some [1, 0] :=
  rfl

end Context

end Lemming.Fwdcontext
