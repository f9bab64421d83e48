import Lemming.Shared.Heap
import Lemming.Shared.Machine

set_option autoImplicit false

namespace Lemming.Action

open Shared

inductive State where
  | DROP
  | CONTINUE
  | CONSUME
  | OUTPUT
  | EVALUATE
deriving DecidableEq, Repr

structure ActionAttr (A : Type) where
  onEvaluate : Bool
  action : A
deriving DecidableEq, Repr

structure Kept (A : Type) where
  cells : List (ActionAttr A)
  len : Nat
  fits : len ≤ cells.length

def Kept.list {A : Type} (kept : Kept A) : List (ActionAttr A) := kept.cells.take kept.len

inductive Returned (A : Type) (n : Nat) where
  | kept (i : Fin n)
  | new (actions : List (ActionAttr A))
deriving DecidableEq, Repr

-- What the actions do. `σ` is all that an action can read and change: the packet, the counters and
-- whatever else it likes. While it runs, the lists that are stored may get more cells behind them:
-- `mirror` has a replica of the packet go through `ProcessPacket`, whose appends are such writes.
structure Behaviour (σ A : Type) (n : Nat) where
  kept : Fin n → Kept A
  process : A → σ → σ × Returned A n × State
  writes : A → σ → Heap (ActionAttr A) → List (Fin n × List (ActionAttr A))

variable {σ A : Type} {n : Nat}

variable (b : Behaviour σ A n)

def Behaviour.list : Returned A n → List (ActionAttr A)
  | .kept i => (b.kept i).list
  | .new actions => actions

-- Everything outside the local variables of the interpreter. `executed` is the history of the actions
-- that ran, with the list each of them returned, and `written` that of the cells overwritten by appends.
structure World (σ A : Type) (n : Nat) where
  packet : σ
  heap : Heap (ActionAttr A)
  executed : List (A × Returned A n)
  written : List Slice

def World.append (world : World σ A n) (s : Slice) (new : List (ActionAttr A)) :
    World σ A n × Slice :=
  let (heap, slice) := s.append world.heap new
  ({ world with heap, written := world.written ++ s.inPlace world.heap new }, slice)

namespace Behaviour

variable (b : Behaviour σ A n)

def heap : Heap (ActionAttr A) := List.ofFn fun i => (b.kept i).cells

def stored (i : Fin n) : Slice := ⟨i, 0, (b.kept i).len⟩

def hold (world : World σ A n) : Returned A n → World σ A n × Slice
  | .kept i => (world, b.stored i)
  | .new actions =>
    let (heap, slice) := Slice.alloc world.heap actions
    ({ world with heap }, slice)

def write (world : World σ A n) (writes : List (Fin n × List (ActionAttr A))) : World σ A n :=
  writes.foldl (fun world new => (world.append (b.stored new.1) new.2).1) world

def act (world : World σ A n) (a : A) : World σ A n × Slice × State :=
  let (packet, returned, state) := b.process a world.packet
  let world := b.write world (b.writes a world.packet world.heap)
  let (world, next) :=
    b.hold { world with packet, executed := world.executed ++ [(a, returned)] } returned
  (world, next, state)

end Behaviour

def maxActions : Nat := 100

def exceedsText : String := "fwdaction: Actions %v exceed max number of actions"

def pending (actions : Slice) (curr : Nat) : Slice := actions.sub curr (actions.len - curr)

def follow (world : World σ A n) (actions : Slice) (curr : Nat) (next : Slice) :
    World σ A n × Slice :=
  if curr = actions.len then (world, next)
  else world.append next ((pending actions curr).get world.heap)

structure Evaluation (σ A : Type) (n : Nat) where
  world : World σ A n
  actions : Slice
  curr : Nat
  exec : Nat
  state : State

structure Evaluated (σ A : Type) (n : Nat) where
  world : World σ A n
  state : State
  exec : Nat
  err : Option String

def evaluateStep (c : Evaluation σ A n) :
    Outcome (Evaluation σ A n ⊕ Evaluated σ A n) :=
  if c.curr < c.actions.len then
    match (c.actions.get c.world.heap)[c.curr]? with
    | none => .panic
    | some a =>
      let curr := c.curr + 1
      let (world, next, state) := b.act c.world a.action
      let exec := c.exec + 1
      -- Any intervening EVALUATE is treated as a CONTINUE.
      let state := if state = .EVALUATE then .CONTINUE else state
      if exec = maxActions then .ok (.inr ⟨world, .DROP, exec, some exceedsText⟩)
      else if state ≠ .CONTINUE then .ok (.inr ⟨world, state, exec, none⟩)
      else if next.len ≠ 0 then
        let (world, actions) := follow world c.actions curr next
        .ok (.inl ⟨world, actions, 0, exec, state⟩)
      else .ok (.inl ⟨world, c.actions, curr, exec, state⟩)
  else .ok (.inr ⟨c.world, c.state, c.exec, none⟩)

def evaluateStart (world : World σ A n) (evaluate : List (ActionAttr A)) : Evaluation σ A n :=
  -- The deferred list is local to the caller, so its array is an own one.
  let (heap, actions) := Slice.alloc world.heap evaluate
  ⟨{ world with heap }, actions, 0, 0, .CONTINUE⟩

-- Every pass but the last executes an action, so that `maxActions` passes are enough.
def evaluatePacket (world : World σ A n) (evaluate : List (ActionAttr A)) :
    Outcome (Evaluated σ A n) :=
  Machine.run (evaluateStep b) maxActions (evaluateStart world evaluate)

structure Processing (σ A : Type) (n : Nat) where
  world : World σ A n
  actions : Slice
  evaluate : List (ActionAttr A)
  curr : Nat
  exec : Nat
  state : State

structure Processed (σ A : Type) (n : Nat) where
  world : World σ A n
  state : State
  err : Option String

def settleState (c : Processing σ A n) (world : World σ A n) (next : Slice)
    (evaluate : List (ActionAttr A)) (exec : Nat) (state : State) :
    Processing σ A n ⊕ Processed σ A n :=
  if exec = maxActions then .inr ⟨world, .DROP, some exceedsText⟩
  else if state ≠ .CONTINUE then .inr ⟨world, state, none⟩
  else if next.len ≠ 0 then
    let (world, actions) := follow world c.actions (c.curr + 1) next
    .inl ⟨world, actions, evaluate, 0, exec, state⟩
  else .inl ⟨world, c.actions, evaluate, c.curr + 1, exec, state⟩

def processStep (c : Processing σ A n) :
    Outcome (Processing σ A n ⊕ Processed σ A n) :=
  if c.curr < c.actions.len then
    match (c.actions.get c.world.heap)[c.curr]? with
    | none => .panic
    | some a =>
      -- If the action is tagged as onEvaluate, append it to the evaluate list.
      if a.onEvaluate then
        .ok (.inl { c with evaluate := c.evaluate ++ [a], curr := c.curr + 1 })
      else
        let (world, next, state) := b.act c.world a.action
        let exec := c.exec + 1
        if state = .EVALUATE then do
          let done ← evaluatePacket b world c.evaluate
          if done.err.isSome then .ok (.inr ⟨done.world, .DROP, done.err⟩)
          else .ok (settleState c done.world next [] (exec + done.exec) done.state)
        else .ok (settleState c world next c.evaluate exec state)
  else .ok (.inr ⟨c.world, c.state, none⟩)

def processStart (packet : σ) (actions : Returned A n) : Processing σ A n :=
  let (world, actions) := b.hold ⟨packet, b.heap, [], []⟩ actions
  ⟨world, actions, [], 0, 0, .CONTINUE⟩

def processPacket (fuel : Nat) (packet : σ) (actions : Returned A n) :
    Outcome (Processed σ A n) :=
  Machine.run (processStep b) fuel (processStart b packet actions)

end Lemming.Action
