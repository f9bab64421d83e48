import Lemming.Ports.Ledger

set_option autoImplicit false

namespace Lemming.Ports

open Shared
open Object (Table Kind ID NID)
open Build

-- What a group reads of packets of type `P`, and how it makes new ones. `hashed` is the hash of the
-- fields that the packet has.
structure Packets (P F : Type) where
  inputPort : P → Option NID
  frame : P → Packet.Bytes
  newNID : P → Packet.Bytes → NID → Except String P
  hashed : HashFn → List F → P → Nat

inductive Written (O P : Type) where
  | failed (message : String)
  | sent (m : Record O)
  | queued (copies : List (O × P))

variable {O F P : Type}

section Writing

variable (packets : Packets P F) (ready : O → Bool) (nid : O → NID) (print : Printing O F)

def selectLink (p : Group O F) (packet : P) : Outcome (Written O P) :=
  match p.hashFn with
  | none => .ok (.failed ("ports: write to group " ++ print.group p ++ " failed, no hash"))
  | some hashFn =>
    let index := packets.hashed hashFn p.fields packet
    let index := if p.members.length ≤ index
      then index - p.members.length * (index / p.members.length) else index
    match p.members[index]? with
    | none => .panic
    | some m => .ok (.sent m)

def floodLoop (packet : P) (pid : NID) (frame : Packet.Bytes) : List (Record O) → List (O × P)
  | [] => []
  | m :: rest =>
    if ready m.2.port = false ∨ pid = nid m.2.port then floodLoop packet pid frame rest
    else
      match packets.newNID packet frame pid with
      | .error _ => floodLoop packet pid frame rest
      | .ok copy => (m.2.port, copy) :: floodLoop packet pid frame rest

def inputNID (packet : P) : NID := (packets.inputPort packet).getD Object.InvalidNID

def floodLink (p : Group O F) (packet : P) : List (O × P) :=
  floodLoop packets ready nid packet (inputNID packets packet) (packets.frame packet) p.members

def Group.write (p : Group O F) (packet : P) : Outcome (Written O P) :=
  if p.members.length = 0 then
    .ok (.failed ("ports: write to group " ++ print.group p ++ " failed, no ports"))
  else
    match p.packetFn with
    | none => .ok (.failed ("ports: write to group " ++ print.group p ++ " failed, no packet function"))
    | some .floodLink => .ok (.queued (floodLink packets ready nid p packet))
    | some .selectLink => selectLink packets print p packet

def Written.onPort [DecidableEq O] (o : O) : Written O P → List P
  | .queued copies => (copies.filter fun c => c.1 = o).map Prod.snd
  | _ => []

end Writing

section Members

def Group.Listed (p : Group O F) : Prop :=
  ∃ order, p.members = selection order p.memberMap

variable [DecidableEq O]

def Group.instancesOn (p : Group O F) (o : O) : Nat :=
  ((p.memberMap.entries.filter fun m => m.2.port = o).map fun m => m.2.instances).sum

theorem Group.Listed.count {p : Group O F} (listed : p.Listed) (o : O) :
    p.members.countP (fun m => m.2.port = o) = p.instancesOn o := by
  obtain ⟨order, members⟩ := listed
  rw [members, selection, countP_replicated, instancesOn]
  exact (((order.perm _).filter _).map _).sum_eq

variable (kind : Kind O) (kinds : O → ObjectKind) (print : Printing O F)

theorem update_listed {s : State O F} (listed : s.group.Listed) (orders : Orders O) (upd : Update F) :
    (update kind kinds print orders s upd).Whenever fun result => result.1.group.Listed := by
  have algorithm (fields : List F) (hash : AggregateHashAlgorithm) :
      (s.group.updateAlgorithm print fields hash).1.Listed := by
    cases hash <;> exact listed
  intro result updated
  cases upd with
  | missing =>
    cases updated
    exact listed
  | aggregateAlgo hash fieldIds =>
    cases updated
    exact algorithm fieldIds hash
  | aggregateDel portId =>
    rw [update, removeGroupMember] at updated
    split at updated
    · cases updated
      exact listed
    · obtain ⟨table, -, updated⟩ := Outcome.bind_eq_ok.mp updated
      cases updated
      exact ⟨orders.members, rfl⟩
  | aggregateAdd portId selectActions instanceCount =>
    rw [update, addGroupMember] at updated
    split at updated
    · cases updated
      exact listed
    · obtain ⟨⟨table, actions⟩, -, updated⟩ := Outcome.bind_eq_ok.mp updated
      cases actions with
      | error err =>
        cases updated
        exact listed
      | ok actions =>
        obtain ⟨⟨table, m⟩, -, updated⟩ := Outcome.bind_eq_ok.mp updated
        cases m with
        | error err =>
          cases updated
          exact listed
        | ok m =>
          cases updated
          exact ⟨orders.members, rfl⟩
  | aggregate portIds hash fieldIds selectActions =>
    have kept := algorithm fieldIds hash
    rw [update, updateGroup] at updated
    generalize s.group.updateAlgorithm print fieldIds hash = changed at kept updated
    obtain ⟨group, err⟩ := changed
    cases err with
    | some err =>
      cases updated
      exact kept
    | none =>
      obtain ⟨⟨table, actions⟩, -, updated⟩ := Outcome.bind_eq_ok.mp updated
      cases actions with
      | error err =>
        cases updated
        exact kept
      | ok actions =>
        obtain ⟨⟨table, members⟩, -, updated⟩ := Outcome.bind_eq_ok.mp updated
        cases members with
        | error err =>
          cases updated
          exact kept
        | ok members =>
          obtain ⟨cleaned, -, updated⟩ := Outcome.bind_eq_ok.mp updated
          obtain ⟨final, -, updated⟩ := Outcome.bind_eq_ok.mp updated
          cases updated
          exact ⟨orders.members, rfl⟩

inductive Reached : State O F → Prop where
  | new (t : Table O) : Reached ⟨t, .new O F⟩
  | update {s : State O F} (reached : Reached s) {orders : Orders O} {upd : Update F}
      {result : State O F × Option String}
      (updated : update kind kinds print orders s upd = .ok result) : Reached result.1
  | other {s : State O F} (reached : Reached s) (t : Table O) : Reached { s with table := t }

variable {kind kinds print}

theorem Reached.listed {s : State O F} (reached : Reached kind kinds print s) : s.group.Listed := by
  induction reached with
  | new t => exact ⟨.id, rfl⟩
  | update _ updated ih => exact update_listed kind kinds print ih _ _ _ updated
  | other _ _ ih => exact ih

end Members

section Flooding

variable [DecidableEq O] (packets : Packets P F) (ready : O → Bool)

def Floods (s : State O F) (packet : P) (o : O) : Prop :=
  (∃ m ∈ s.group.memberMap.entries, m.2.port = o) ∧ ready o = true ∧
    inputNID packets packet ≠ (s.table.objects o).nid

theorem floodLoop_onPort {nid : O → NID} {packet copy : P} {pid : NID} {frame : Packet.Bytes}
    (parses : packets.newNID packet frame pid = .ok copy) (o : O) (members : List (Record O)) :
    ((floodLoop packets ready nid packet pid frame members).filter fun c => c.1 = o).map Prod.snd =
      if ready o = true ∧ pid ≠ nid o then
        List.replicate (members.countP fun m => m.2.port = o) copy else [] := by
  induction members with
  | nil => simp [floodLoop]
  | cons m rest ih =>
    rw [floodLoop]
    by_cases here : m.2.port = o
    · subst here
      by_cases skipped : ready m.2.port = false ∨ pid = nid m.2.port
      · rw [if_pos skipped, ih]
        rcases skipped with down | same
        · simp [down]
        · simp [same]
      · obtain ⟨up, other⟩ := not_or.mp skipped
        simp only [if_neg skipped, parses, List.filter_cons, decide_true, if_true, List.map_cons, ih]
        rw [if_pos ⟨by simpa using up, other⟩, if_pos ⟨by simpa using up, other⟩]
        simp [List.replicate_succ]
    · rw [List.countP_cons_of_neg (by simpa using here), ← ih]
      split
      · rfl
      · rw [parses]
        simp [here]

theorem instancesOn_none {p : Group O F} {o : O} (none : ¬ ∃ m ∈ p.memberMap.entries, m.2.port = o) :
    p.instancesOn o = 0 := by
  have empty : (p.memberMap.entries.filter fun m => m.2.port = o) = [] :=
    List.filter_eq_nil_iff.mpr fun m member => by simpa using fun same => none ⟨m, member, same⟩
  rw [Group.instancesOn, empty]
  rfl

theorem write_onPort {p : Group O F} (listed : p.Listed) (floods : p.packetFn = some .floodLink)
    (print : Printing O F) (nid : O → NID) {packet copy : P}
    (parses : packets.newNID packet (packets.frame packet) (inputNID packets packet) = .ok copy) :
    ∃ written, p.write packets ready nid print packet = .ok written ∧
      ∀ o, written.onPort o = if ready o = true ∧ inputNID packets packet ≠ nid o then
        List.replicate (p.instancesOn o) copy else [] := by
  by_cases empty : p.members.length = 0
  · refine ⟨_, if_pos empty, fun o => ?_⟩
    rw [← listed.count, List.length_eq_zero_iff.mp empty]
    split <;> rfl
  · refine ⟨.queued (floodLink packets ready nid p packet), ?_, fun o => ?_⟩
    · rw [Group.write, if_neg empty, floods]
    · rw [Written.onPort, floodLink, floodLoop_onPort packets ready parses o, listed.count]

end Flooding

section Samples

def bare : Packets Unit Nat := ⟨fun _ => none, fun _ => [], fun _ _ _ => .ok (), fun _ _ _ => 0⟩

def floodingTo (instances : Nat) : Outcome (State (Fin 2) Nat) := do
  let (s, _) ← update noParts allPorts plainPrint anyOrders ⟨onePort, .new (Fin 2) Nat⟩ (.aggregateAlgo .flood [])
  let (s, _) ← update noParts allPorts plainPrint anyOrders s (.aggregateAdd (some (some "p")) [] instances)
  return s

theorem floodingTo_reached {instances : Nat} {s : State (Fin 2) Nat}
    (built : floodingTo instances = .ok s) : Reached noParts allPorts plainPrint s := by
  obtain ⟨first, flooded, built⟩ := Outcome.bind_eq_ok.mp built
  obtain ⟨second, added, built⟩ := Outcome.bind_eq_ok.mp built
  cases built
  exact .update (.update (.new onePort) flooded) added

end Samples

end Lemming.Ports
