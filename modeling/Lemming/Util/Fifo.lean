import Lemming.Shared.Interleaving

set_option autoImplicit false

namespace Lemming.Util

open Shared Shared.Interleaving

section

variable {α : Type}

inductive InStage (α : Type) where
  | receiving
  | holding (v : α)
  | returned

inductive OutStage (α : Type) where
  | checking
  | waiting
  | woken
  | sending (v : α)
  | sent
  | returned

def unbounded : Int := -1

-- A queue with its goroutines. A writer past its check is known by the value it is about to send.
-- `accepted` lists the values in the order in which the in channel took them, and `received` those that
-- the client got.
structure Queue (α : Type) where
  max : Int
  count : Int
  elements : List α
  closed : Bool
  writers : List α
  input : InStage α
  output : OutStage α
  accepted : List α
  received : List α
  panicked : Bool

namespace Queue

def new (max : Int) : Queue α where
  max := max
  count := 0
  elements := []
  closed := false
  writers := []
  input := .receiving
  output := .checking
  accepted := []
  received := []
  panicked := false

inductive Action (α : Type) where
  | write (v : α)
  | send (writer : Nat)
  | close
  | serveIn
  | serveOut

variable (q : Queue α)

def write (v : α) : Option (Queue α) :=
  if q.closed then none
  else if q.max ≠ unbounded then
    if q.max ≤ q.count then none
    else some { q with count := q.count + 1, writers := q.writers ++ [v] }
  else some { q with writers := q.writers ++ [v] }

def send (writer : Nat) : Option (Queue α) :=
  match q.writers[writer]? with
  | none => none
  | some v =>
    if q.closed then some { q with panicked := true }
    else
      match q.input with
      | .receiving => some { q with
          writers := q.writers.eraseIdx writer, input := .holding v, accepted := q.accepted ++ [v] }
      | _ => none

def signal : OutStage α → OutStage α
  | .waiting => .woken
  | stage => stage

def close : Option (Queue α) :=
  if q.closed then none
  else some { q with closed := true, elements := [], output := signal q.output }

def serveIn : Option (Queue α) :=
  match q.input with
  | .receiving => if q.closed then some { q with input := .returned } else none
  | .holding v =>
    if q.closed then some { q with input := .returned }
    else some { q with
      elements := q.elements ++ [v], output := signal q.output, input := .receiving }
  | .returned => none

def takeElement : Queue α :=
  if q.closed then { q with output := .returned }
  else
    match q.elements with
    | [] => { q with panicked := true }
    | v :: rest => { q with elements := rest, output := .sending v }

def serveOut : Option (Queue α) :=
  match q.output with
  | .checking =>
    if !q.closed && q.elements.isEmpty then some { q with output := .waiting } else some q.takeElement
  | .waiting => none
  | .woken => some q.takeElement
  | .sending v => some { q with output := .sent, received := q.received ++ [v] }
  | .sent => some { q with
      output := .checking, count := if q.max ≠ unbounded then q.count - 1 else q.count }
  | .returned => none

def step (action : Action α) : Option (Queue α) :=
  if q.panicked then none
  else
    match action with
    | .write v => q.write v
    | .send writer => q.send writer
    | .close => q.close
    | .serveIn => q.serveIn
    | .serveOut => q.serveOut

def Action.internal : Action α → Prop
  | .write _ => False
  | .close => False
  | _ => True

inductive Does (q : Queue α) : Action α → Queue α → Prop where
  | write (v : α) (isOpen : q.closed = false) (room : q.max ≠ unbounded → q.count < q.max) :
    Does q (.write v) { q with
      count := if q.max ≠ unbounded then q.count + 1 else q.count, writers := q.writers ++ [v] }
  | sendClosed (writer : Nat) (v : α) (stands : q.writers[writer]? = some v)
      (closed : q.closed = true) : Does q (.send writer) { q with panicked := true }
  | send (writer : Nat) (v : α) (stands : q.writers[writer]? = some v) (isOpen : q.closed = false)
      (receiving : q.input = .receiving) :
    Does q (.send writer) { q with
      writers := q.writers.eraseIdx writer, input := .holding v, accepted := q.accepted ++ [v] }
  | close (isOpen : q.closed = false) :
    Does q .close { q with closed := true, elements := [], output := signal q.output }
  | inEnds (closed : q.closed = true) (serves : q.input ≠ .returned) :
    Does q .serveIn { q with input := .returned }
  | enqueue (v : α) (isOpen : q.closed = false) (holding : q.input = .holding v) :
    Does q .serveIn { q with
      elements := q.elements ++ [v], output := signal q.output, input := .receiving }
  | wait (isOpen : q.closed = false) (checking : q.output = .checking) (empty : q.elements = []) :
    Does q .serveOut { q with output := .waiting }
  | outEnds (closed : q.closed = true) (looks : q.output = .checking ∨ q.output = .woken) :
    Does q .serveOut { q with output := .returned }
  | take (v : α) (rest : List α) (isOpen : q.closed = false)
      (looks : q.output = .checking ∨ q.output = .woken) (first : q.elements = v :: rest) :
    Does q .serveOut { q with elements := rest, output := .sending v }
  | starve (isOpen : q.closed = false) (woken : q.output = .woken) (empty : q.elements = []) :
    Does q .serveOut { q with panicked := true }
  | deliver (v : α) (sending : q.output = .sending v) :
    Does q .serveOut { q with output := .sent, received := q.received ++ [v] }
  | release (sent : q.output = .sent) :
    Does q .serveOut { q with
      output := .checking, count := if q.max ≠ unbounded then q.count - 1 else q.count }

variable {q q' : Queue α} {action : Action α}

theorem does_write {v : α} (goes : q.write v = some q') : q.Does (.write v) q' := by
  unfold Queue.write at goes
  split at goes
  · cases goes
  · next isOpen =>
    have isOpen : q.closed = false := by simpa using isOpen
    split at goes
    · next bounded =>
      split at goes
      · cases goes
      · next room =>
        cases goes
        have accepts := Does.write v isOpen fun _ => Int.not_le.mp room
        rwa [if_pos bounded] at accepts
    · next isUnbounded =>
      cases goes
      have accepts := Does.write v isOpen fun bounded => absurd bounded isUnbounded
      rwa [if_neg isUnbounded] at accepts

theorem does_send {writer : Nat} (goes : q.send writer = some q') : q.Does (.send writer) q' := by
  unfold Queue.send at goes
  split at goes
  · cases goes
  · next v stands =>
    split at goes
    · next closed =>
      cases goes
      exact .sendClosed writer v stands closed
    · next isOpen =>
      have isOpen : q.closed = false := by simpa using isOpen
      split at goes
      · next receiving =>
        cases goes
        exact .send writer v stands isOpen receiving
      · cases goes

theorem does_serveIn (goes : q.serveIn = some q') : q.Does .serveIn q' := by
  unfold Queue.serveIn at goes
  split at goes
  · next receiving =>
    split at goes
    · next closed =>
      cases goes
      exact .inEnds closed (by rw [receiving]; rintro ⟨⟩)
    · cases goes
  · next v holding =>
    split at goes
    · next closed =>
      cases goes
      exact .inEnds closed (by rw [holding]; rintro ⟨⟩)
    · next isOpen =>
      cases goes
      exact .enqueue v (by simpa using isOpen) holding
  · cases goes

theorem does_takeElement (looks : q.output = .checking ∨ q.output = .woken)
    (ready : q.output = .checking → q.closed = true ∨ q.elements ≠ []) :
    q.Does .serveOut q.takeElement := by
  unfold takeElement
  split
  · next closed => exact .outEnds closed looks
  · next isOpen =>
    have isOpen : q.closed = false := by simpa using isOpen
    split
    · next empty =>
      rcases looks with checking | woken
      · rcases ready checking with closed | more
        · cases isOpen.symm.trans closed
        · exact absurd empty more
      · exact .starve isOpen woken empty
    · next v rest first => exact .take v rest isOpen looks first

theorem does_serveOut (goes : q.serveOut = some q') : q.Does .serveOut q' := by
  unfold Queue.serveOut at goes
  split at goes
  · next checking =>
    split at goes
    · next waits =>
      cases goes
      simp only [Bool.and_eq_true, Bool.not_eq_true', List.isEmpty_iff] at waits
      exact .wait waits.1 checking waits.2
    · next goesOn =>
      cases goes
      refine does_takeElement (Or.inl checking) fun _ => ?_
      cases isClosed : q.closed with
      | true => exact Or.inl rfl
      | false => exact Or.inr (by simpa [isClosed] using goesOn)
  · cases goes
  · next woken =>
    cases goes
    refine does_takeElement (Or.inr woken) fun checking => ?_
    cases woken.symm.trans checking
  · next v sending =>
    cases goes
    exact .deliver v sending
  · next sent =>
    cases goes
    exact .release sent
  · cases goes

theorem step_does (goes : q.step action = some q') : q.panicked = false ∧ q.Does action q' := by
  unfold step at goes
  split at goes
  · cases goes
  · next running =>
    refine ⟨by simpa using running, ?_⟩
    cases action with
    | write v => exact does_write goes
    | send writer => exact does_send goes
    | close =>
      simp only [Queue.close] at goes
      split at goes
      · cases goes
      · next isOpen =>
        cases goes
        exact .close (by simpa using isOpen)
    | serveIn => exact does_serveIn goes
    | serveOut => exact does_serveOut goes

end Queue

end

variable {α : Type}

def InStage.held : InStage α → List α
  | .holding v => [v]
  | _ => []

def OutStage.held : OutStage α → List α
  | .sending v => [v]
  | _ => []

def OutStage.counted : OutStage α → Nat
  | .sending _ => 1
  | .sent => 1
  | _ => 0

namespace Queue

def work (q : Queue α) : Nat :=
  6 * q.writers.length + 3 * q.elements.length +
    (match q.input with
    | .receiving => 1
    | .holding _ => 6
    | .returned => 0) +
    match q.output with
    | .checking => 1
    | .waiting => 0
    | .woken => 1
    | .sending _ => 3
    | .sent => 2
    | .returned => 0

def rank (q : Queue α) : Nat := if q.panicked then 0 else 1 + q.work

variable {q q' : Queue α} {action : Action α}

theorem signal_held (stage : OutStage α) : (signal stage).held = stage.held := by
  cases stage <;> rfl

theorem signal_counted (stage : OutStage α) : (signal stage).counted = stage.counted := by
  cases stage <;> rfl

theorem Does.rank_lt (does : q.Does action q') (running : q.panicked = false)
    (internal : action.internal) : q'.rank < q.rank := by
  have here : q.rank = 1 + q.work := by simp [rank, running]
  have next (lower : q'.work < q.work) : q'.rank < q.rank := by
    rw [here, rank]
    split <;> omega
  cases does with
  | write v isOpen room | close isOpen => exact internal.elim
  | sendClosed writer v stands closed | starve isOpen woken empty =>
    rw [here, rank, if_pos rfl]
    omega
  | send writer v stands isOpen receiving =>
    apply next
    obtain ⟨bound, -⟩ := List.getElem?_eq_some_iff.mp stands
    have shorter := List.length_eraseIdx_of_lt bound
    simp only [work, receiving, shorter]
    omega
  | inEnds closed serves =>
    apply next
    cases stage : q.input with
    | returned => exact absurd stage serves
    | receiving | holding v => simp [work, stage]
  | enqueue v isOpen holding =>
    apply next
    cases stage : q.output <;> simp [work, holding, stage, signal] <;> omega
  | wait isOpen checking empty =>
    apply next
    simp [work, checking]
  | outEnds closed looks =>
    apply next
    rcases looks with stage | stage <;> simp [work, stage]
  | take v rest isOpen looks first =>
    apply next
    rcases looks with stage | stage <;> simp [work, stage, first] <;> omega
  | deliver v sending =>
    apply next
    simp [work, sending]
  | release sent =>
    apply next
    simp [work, sent]

structure Consistent (q : Queue α) : Prop where
  running : q.panicked = false
  -- An open queue holds each accepted value at one place.
  order : q.closed = false →
    q.accepted = q.received ++ q.output.held ++ q.elements ++ q.input.held
  fifo : q.received ++ q.output.held <+: q.accepted
  emptied : q.closed = true → q.elements = [] ∧ q.writers = []
  waiting : q.output = .waiting → q.closed = false ∧ q.elements = []
  woken : q.output = .woken → q.closed = true ∨ q.elements ≠ []
  outReturned : q.output = .returned → q.closed = true
  inReturned : q.input = .returned → q.closed = true
  counted : q.max ≠ unbounded → q.closed = false → q.count =
    q.writers.length + q.input.held.length + q.elements.length + q.output.counted
  bounded : q.max ≠ unbounded → q.count ≤ q.max.toNat

theorem new_consistent (max : Int) : (new max : Queue α).Consistent where
  running := rfl
  order := fun _ => rfl
  fifo := List.nil_prefix
  emptied := nofun
  waiting := nofun
  woken := nofun
  outReturned := nofun
  inReturned := nofun
  counted := fun _ _ => rfl
  bounded := fun _ => Int.natCast_nonneg _

-- A queue is closed when no writer stands at its send.
def Quiet (q : Queue α) (action : Action α) : Prop :=
  match action with
  | .close => q.writers = []
  | _ => True

theorem Consistent.does (consistent : q.Consistent) (quiet : q.Quiet action)
    (does : q.Does action q') : q'.Consistent := by
  cases does with
  | write v isOpen room =>
    refine { consistent with emptied := by simp [isOpen], counted := ?_, bounded := ?_ }
    · intro isBounded _
      have count := consistent.counted isBounded isOpen
      simp only [if_pos isBounded, List.length_append, List.length_singleton]
      omega
    · intro isBounded
      have below := room isBounded
      simp only [if_pos isBounded]
      omega
  | sendClosed writer v stands closed =>
    rw [(consistent.emptied closed).2] at stands
    cases stands
  | send writer v stands isOpen receiving =>
    obtain ⟨bound, -⟩ := List.getElem?_eq_some_iff.mp stands
    refine { consistent with
      order := ?_, fifo := consistent.fifo.trans (List.prefix_append _ _),
      emptied := by simp [isOpen], inReturned := nofun, counted := ?_ }
    · intro _
      have order := consistent.order isOpen
      simp only [receiving, InStage.held, List.append_nil] at order
      rw [order]
      rfl
    · intro isBounded _
      have count := consistent.counted isBounded isOpen
      have shorter := List.length_eraseIdx_of_lt bound
      simp only [receiving, InStage.held, List.length_nil] at count
      simp only [shorter, InStage.held, List.length_singleton]
      omega
  | close isOpen =>
    refine { consistent with
      order := nofun, fifo := ?_, emptied := fun _ => ⟨rfl, quiet⟩, waiting := ?_,
      woken := fun _ => Or.inl rfl, outReturned := fun _ => rfl, inReturned := fun _ => rfl,
      counted := nofun }
    · rw [signal_held]
      exact consistent.fifo
    · cases stage : q.output <;> rintro ⟨⟩
  | inEnds closed serves =>
    exact { consistent with
      order := by simp [closed], inReturned := fun _ => closed, counted := by simp [closed] }
  | enqueue v isOpen holding =>
    refine { consistent with
      order := ?_, fifo := ?_, emptied := by simp [isOpen], waiting := ?_,
      woken := fun _ => Or.inr (by simp), outReturned := ?_, inReturned := nofun, counted := ?_ }
    · intro _
      have order := consistent.order isOpen
      rw [holding] at order
      simpa [signal_held, InStage.held] using order
    · rw [signal_held]
      exact consistent.fifo
    · cases stage : q.output <;> rintro ⟨⟩
    · intro returned
      apply consistent.outReturned
      revert returned
      cases stage : q.output <;> simp [signal]
    · intro isBounded _
      have count := consistent.counted isBounded isOpen
      simp only [holding, InStage.held, List.length_singleton] at count
      simp only [signal_counted, List.length_append, InStage.held, List.length_singleton,
        List.length_nil]
      omega
  | wait isOpen checking empty =>
    exact { consistent with
      order := by simpa [checking, OutStage.held] using consistent.order
      fifo := by simpa [checking, OutStage.held] using consistent.fifo
      waiting := fun _ => ⟨isOpen, empty⟩, woken := nofun, outReturned := nofun
      counted := by simpa [checking, OutStage.counted] using consistent.counted }
  | outEnds closed looks =>
    refine { consistent with
      order := by simp [closed], fifo := ?_, waiting := nofun, woken := nofun,
      outReturned := fun _ => closed, counted := by simp [closed] }
    rcases looks with stage | stage <;> simpa [stage, OutStage.held] using consistent.fifo
  | take v rest isOpen looks first =>
    have order := consistent.order isOpen
    have nothing : q.output.held = [] := by rcases looks with stage | stage <;> rw [stage] <;> rfl
    have none : q.output.counted = 0 := by rcases looks with stage | stage <;> rw [stage] <;> rfl
    refine { consistent with
      order := ?_, fifo := ?_, emptied := by simp [isOpen], waiting := nofun, woken := nofun,
      outReturned := nofun, counted := ?_ }
    · intro _
      rw [order, nothing, first]
      simp [OutStage.held]
    · rw [order, nothing, first]
      exact ⟨rest ++ q.input.held, by simp [OutStage.held]⟩
    · intro isBounded _
      have count := consistent.counted isBounded isOpen
      rw [none, first, List.length_cons] at count
      simp only [OutStage.counted]
      omega
  | starve isOpen woken empty =>
    rcases consistent.woken woken with closed | more
    · cases isOpen.symm.trans closed
    · exact absurd empty more
  | deliver v sending =>
    exact { consistent with
      order := by simpa [sending, OutStage.held] using consistent.order
      fifo := by simpa [sending, OutStage.held] using consistent.fifo
      waiting := nofun, woken := nofun, outReturned := nofun
      counted := by simpa [sending, OutStage.counted] using consistent.counted }
  | release sent =>
    refine { consistent with
      order := by simpa [sent, OutStage.held] using consistent.order
      fifo := by simpa [sent, OutStage.held] using consistent.fifo
      waiting := nofun, woken := nofun, outReturned := nofun, counted := ?_, bounded := ?_ }
    · intro isBounded isOpen
      have count := consistent.counted isBounded isOpen
      simp only [sent, OutStage.counted] at count
      simp only [if_pos isBounded, OutStage.counted]
      omega
    · intro isBounded
      have bound := consistent.bounded isBounded
      simp only [if_pos isBounded]
      omega

-- The queue is a safe FIFO: nothing is sent on a closed channel, the client gets the accepted values in
-- their order, and no more are queued than the maximum. Without new calls all goroutines come to rest,
-- and once an open queue is at rest the client has got every value.
structure Safe (q : Queue α) : Prop where
  running : q.panicked = false
  fifo : q.received <+: q.accepted
  bounded : q.max ≠ unbounded → q.elements.length ≤ q.max.toNat ∧ q.count ≤ q.max.toNat
  settles : ∀ more q', (∀ action ∈ more, Action.internal action) → run step q more = some q' →
    more.length ≤ q.rank
  complete : q.closed = false → AtRest step Action.internal q →
    q.received = q.accepted ∧ q.writers = []

theorem Consistent.at_rest (consistent : q.Consistent) (isOpen : q.closed = false)
    (restIn : q.step .serveIn = none) (restOut : q.step .serveOut = none) :
    q.input = .receiving ∧ q.received = q.accepted := by
  have serveIn : q.serveIn = none := by rwa [step, consistent.running] at restIn
  have serveOut : q.serveOut = none := by rwa [step, consistent.running] at restOut
  suffices stages : q.input = .receiving ∧ q.output = .waiting by
    obtain ⟨receiving, waiting⟩ := stages
    have order := consistent.order isOpen
    rw [receiving, waiting, (consistent.waiting waiting).2] at order
    exact ⟨receiving, by simpa [InStage.held, OutStage.held] using order.symm⟩
  constructor
  · cases stage : q.input with
    | receiving => rfl
    | holding v => simp [Queue.serveIn, stage, isOpen] at serveIn
    | returned => cases isOpen.symm.trans (consistent.inReturned stage)
  · unfold Queue.serveOut at serveOut
    cases stage : q.output with
    | waiting => rfl
    | returned => cases isOpen.symm.trans (consistent.outReturned stage)
    | checking =>
      simp only [stage] at serveOut
      split at serveOut <;> cases serveOut
    | woken | sending v | sent => simp [stage] at serveOut

theorem Consistent.safe (consistent : q.Consistent) : q.Safe where
  running := consistent.running
  fifo := (List.prefix_append _ _).trans consistent.fifo
  bounded := by
    intro isBounded
    have count := consistent.bounded isBounded
    refine ⟨?_, count⟩
    cases isClosed : q.closed with
    | true => simp [(consistent.emptied isClosed).1]
    | false =>
      have counted := consistent.counted isBounded isClosed
      omega
  settles := by
    intro more q' inside ends
    have lowers (s : Queue α) (action : Action α) (t : Queue α) (internal : action.internal)
        (goes : s.step action = some t) : t.rank < s.rank :=
      (step_does goes).2.rank_lt (step_does goes).1 internal
    have length := length_le_rank lowers inside ends
    omega
  complete := by
    intro isOpen rest
    obtain ⟨receiving, same⟩ :=
      consistent.at_rest isOpen (rest .serveIn trivial) (rest .serveOut trivial)
    refine ⟨same, ?_⟩
    cases writers : q.writers with
    | nil => rfl
    | cons v others =>
      have none := rest (.send 0) trivial
      simp [step, consistent.running, Queue.send, writers, isOpen, receiving] at none

def Exposed (q : Queue α) : Prop := q.closed = true ∧ q.writers ≠ []

theorem Exposed.stays (exposed : q.Exposed) (goes : q.step action = some q') : q'.Exposed := by
  obtain ⟨closed, stands⟩ := exposed
  have isOpen (isOpen : q.closed = false) : q'.Exposed := by
    cases closed.symm.trans isOpen
  cases (step_does goes).2 with
  | write v wasOpen room | send writer v stands wasOpen receiving => exact isOpen wasOpen
  | close wasOpen | take v rest wasOpen looks first => exact isOpen wasOpen
  | _ => exact ⟨closed, stands⟩

theorem exposed_of_not_quiet {actions : List (Action α)} (ends : run step q actions = some q')
    (loud : ¬ Along step Quiet q actions) : q'.Exposed := by
  obtain ⟨part, action, rest, t, rfl, reached, -, loud⟩ := exists_of_not_along loud
  rw [run_append, reached, Option.bind_some] at ends
  obtain ⟨next, goes, ends⟩ := run_cons ends
  have exposed : next.Exposed := by
    cases action with
    | close =>
      cases (step_does goes).2
      exact ⟨rfl, loud⟩
    | _ => exact absurd trivial loud
  exact run_invariant (fun s a t (holds : s.Exposed) goes => holds.stays goes) exposed ends

theorem Exposed.panics (exposed : q.Exposed) :
    ∃ more q', (∀ action ∈ more, Action.internal action) ∧ run step q more = some q' ∧
      q'.panicked = true := by
  cases isPanicked : q.panicked with
  | true => exact ⟨[], q, by simp, rfl, isPanicked⟩
  | false =>
    obtain ⟨closed, stands⟩ := exposed
    cases writers : q.writers with
    | nil => exact absurd writers stands
    | cons v others =>
      refine ⟨[.send 0], { q with panicked := true }, by simp [Action.internal], ?_, rfl⟩
      simp [run, step, isPanicked, Queue.send, writers, closed]

theorem safe_fifo_iff (max : Int) (actions : List (Action α)) (q : Queue α)
    (ends : run step (new max) actions = some q) :
    (∀ more q', (∀ action ∈ more, Action.internal action) → run step q more = some q' → q'.Safe) ↔
      Along step Quiet (new max) actions := by
  constructor
  · intro safe
    by_contra loud
    obtain ⟨more, q', inside, ends', isPanicked⟩ := (exposed_of_not_quiet ends loud).panics
    cases (safe more q' inside ends').running.symm.trans isPanicked
  · intro quiet more q' inside ends'
    have keeps (s : Queue α) (action : Action α) (t : Queue α) (consistent : s.Consistent)
        (quiet : s.Quiet action) (goes : s.step action = some t) : t.Consistent :=
      consistent.does quiet (step_does goes).2
    have consistent := quiet.invariant keeps (new_consistent max) ends
    have onward : Along step Quiet q more := by
      refine .of_forall fun s action member => ?_
      have internal := inside action member
      cases action with
      | close => exact internal.elim
      | _ => trivial
    exact (onward.invariant keeps consistent ends').safe

theorem safe_fifo_handed_over :
    (∀ more q', (∀ action ∈ more, Action.internal action) →
      run step { (new 1 : Queue Nat) with
        count := 1, closed := true, input := .holding 5, accepted := [5] } more = some q' → q'.Safe) ↔
      Along step Quiet (new 1) [.write 5, .send 0, .close] :=
  safe_fifo_iff 1 [.write 5, .send 0, .close] _ rfl

-- The queue is closed while a writer stands between its check and its send.
theorem close_before_send_panics :
    ∃ q, run step (new unbounded : Queue Nat) [.write 5, .close, .send 0] = some q ∧
      q.panicked = true :=
  ⟨_, rfl, rfl⟩

end Queue

end Lemming.Util
