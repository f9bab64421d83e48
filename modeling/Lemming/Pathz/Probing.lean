import Lemming.Acl.Decision
import Lemming.Pathz.Exclusion

set_option autoImplicit false

namespace Lemming.Pathz

open Shared Acl

variable (comparePaths : Path → Path → CompareRelation) {pathText : Path → String}

def Server.checkPermit (server : Server) (fuel : Nat) (orders : (trie : Trie) → Orders trie) (path : Path)
    (user : Text) (write : Bool) : Outcome Bool :=
  match server.active with
  | none => .ok false
  | some data => do
    let mode := if write then Mode.write else .read
    let act ← data.trie.probe comparePaths fuel (orders data.trie) path user mode
    return decide (act = .permit)

def Server.Checks (server : Server) (policy : Policy) : Prop :=
  ∀ (orders : (trie : Trie) → Orders trie) path user write, ∃ permitted n,
    (NoneApplies comparePaths policy path user (if write then .write else .read) → permitted = false) ∧
    ∀ fuel ≥ n, server.checkPermit comparePaths fuel orders path user write = .ok permitted

variable (pathText) in
def PolicyData.Accepted (data : PolicyData) : Prop :=
  fromPolicy pathText data.rawPolicy = .ok data.trie

structure Server.Accepted (pathText : Path → String) (server : Server) : Prop where
  sandbox : ∀ data, server.sandbox = some data → data.Accepted pathText
  active : ∀ data, server.active = some data → data.Accepted pathText
  writing : ∀ i data, (server.streams i).point = .write data → data.Accepted pathText

theorem receive_accepted {stream : Stream} {message : Message} {data : PolicyData}
    (point : (stream.receive pathText message).point = .write data) : data.Accepted pathText := by
  cases message with
  | upload policy version createdOn =>
    rw [Stream.receive] at point
    split at point
    · cases point
    · split at point <;> cases point
      next parsed => exact parsed
  | finalize =>
    rw [Stream.receive] at point
    split at point <;> cases point
  | _ => cases point

theorem Server.Accepted.setStream {server base : Server} (accepted : server.Accepted pathText) {i : Nat}
    {stream : Stream} (same : base.streams = server.streams)
    (sandbox : ∀ data, base.sandbox = some data → data.Accepted pathText)
    (active : ∀ data, base.active = some data → data.Accepted pathText)
    (writing : ∀ data, stream.point = .write data → data.Accepted pathText) :
    (base.setStream i stream).Accepted pathText := by
  refine ⟨sandbox, active, fun k data point => ?_⟩
  by_cases isI : k = i
  · subst isI
    rw [setStream_self] at point
    exact writing data point
  · rw [setStream_other base isI, same] at point
    exact accepted.writing k data point

theorem Server.Accepted.step {server after : Server} {event : Event} (accepted : server.Accepted pathText)
    (taken : server.step pathText event = some after) : after.Accepted pathText := by
  have ⟨sandbox, active, writing⟩ := accepted
  cases step_transition taken with
  | recv point message => exact accepted.setStream rfl sandbox active fun _ => receive_accepted
  | write data point =>
    refine accepted.setStream rfl ?_ active nofun
    rintro _ ⟨⟩
    exact writing _ data point
  | confirmUpload point delivered =>
    refine accepted.setStream rfl sandbox active fun data isWrite => ?_
    cases delivered <;> cases isWrite
  | activate point => exact accepted.setStream rfl nofun sandbox nofun
  | _ => exact accepted.setStream rfl sandbox active nofun

theorem Server.Accepted.run {events : List Event} : ∀ {server after : Server},
    server.Accepted pathText → server.run pathText events = some after → after.Accepted pathText := by
  induction events with
  | nil =>
    rintro server _ accepted ⟨⟩
    exact accepted
  | cons event rest ih =>
    intro server after accepted ran
    obtain ⟨next, taken, ran⟩ := Option.bind_eq_some_iff.mp ran
    exact ih (accepted.step taken) ran

theorem rotated_policy_probed {events : List Event} {server : Server} {data : PolicyData}
    (ran : Server.initial.run pathText events = some server) (isActive : server.active = some data)
    (root : ∃ path, Matches comparePaths path []) :
    (data.rawPolicy.rules ≠ [] ∧ Sound comparePaths data.rawPolicy →
      Decides comparePaths data.rawPolicy data.trie ∧ server.Checks comparePaths data.rawPolicy) ∧
    (Decides comparePaths data.rawPolicy data.trie ∧ server.Checks comparePaths data.rawPolicy →
      data.rawPolicy.rules ≠ [] ∧ ∀ path user mode,
        NoneApplies comparePaths data.rawPolicy path user mode →
          Grants comparePaths data.rawPolicy path user mode .permit →
            Grants comparePaths data.rawPolicy path user mode .deny) := by
  have initial : Server.initial.Accepted pathText := ⟨nofun, nofun, nofun⟩
  obtain ⟨kept, isMembers⟩ := fromPolicy_kept ((initial.run ran).active data isActive)
  refine ⟨fun ⟨someRule, sound⟩ => ?_, fun holds => kept.of_decides root isMembers holds.1⟩
  have decides := kept.decides isMembers someRule sound
  refine ⟨decides, fun orders path user write => ?_⟩
  obtain ⟨act, n, -, denies, answers⟩ :=
    decides (orders data.trie) path user (if write then Mode.write else .read)
  refine ⟨decide (act = .permit), n, fun none => ?_, fun fuel enough => ?_⟩
  · rw [denies none]
    rfl
  · simp only [Server.checkPermit, isActive, answers fuel enough]
    rfl

def rotating (policy : Policy) : List Event :=
  [⟨0, .load⟩, ⟨0, .store⟩, ⟨0, .recv (.upload policy [] 0)⟩, ⟨0, .write⟩, ⟨0, .send true⟩,
    ⟨0, .recv .finalize⟩, ⟨0, .activate⟩]

def readPolicy : Policy :=
  ⟨[⟨['g'], [['u']]⟩],
    [⟨some [⟨['a'], ∅⟩], .group ['g'], .read, .permit⟩,
      ⟨some [⟨['a'], ∅⟩, ⟨['b'], ∅⟩], .user ['u'], .read, .deny⟩]⟩

theorem rotated_read_probed :
    ∃ server data, Server.initial.run (fun _ => "") (rotating readPolicy) = some server ∧
      server.active = some data ∧ data.rawPolicy = readPolicy ∧
      Decides comparePlain readPolicy data.trie ∧ server.Checks comparePlain readPolicy := by
  have ran : Server.initial.run (fun _ => "") (rotating readPolicy) = some _ := rfl
  have sound : Sound comparePlain readPolicy := by
    refine sound_of_own fun rule isRule rulePath isPath => ?_
    rcases List.mem_pair.mp isRule with rfl | rfl <;> cases isPath <;> rfl
  exact ⟨_, _, ran, rfl, rfl, (rotated_policy_probed _ ran rfl ⟨[], by decide⟩).1
    ⟨List.cons_ne_nil _ _, sound⟩⟩

-- Two elements that print alike: one has the brackets in its name, the other has a key.
def bracketed : Path := [⟨['a', '[', 'b', '=', 'c', ']'], ∅⟩]

def keyed : Path := [⟨['a'], AList.insert ['b'] ['c'] ∅⟩]

def sharedPolicy : Policy :=
  ⟨[], [⟨some bracketed, .user ['u'], .read, .permit⟩, ⟨some keyed, .user ['u'], .write, .permit⟩]⟩

def firstOrders (trie : Trie) : Orders trie :=
  ⟨trie.nodes.children, fun _ => .refl _, fun _ => .id, fun _ => .id⟩

-- A policy without rules is accepted and activated, and then every check dereferences the nil root. And
-- the rule to write under the keyed element permits writing under the other, which no rule is for.
theorem rotated_empty_panics :
    (∃ server, Server.initial.run (fun _ => "") (rotating ⟨[], []⟩) = some server ∧
      ∀ fuel orders path user write,
        server.checkPermit comparePlain (fuel + 1) orders path user write = .panic) ∧
    ∃ server, Server.initial.run (fun _ => "") (rotating sharedPolicy) = some server ∧
      NoneApplies comparePlain sharedPolicy bracketed ['u'] .write ∧
      server.checkPermit comparePlain 2 firstOrders bracketed ['u'] true = .ok true := by
  refine ⟨⟨_, rfl, fun fuel orders path user write => ?_⟩, _, rfl, ?_, by decide⟩
  · cases path <;> rfl
  · rintro rule isRule ⟨⟨isMode, -⟩, rulePath, isPath, isMatch⟩
    rcases List.mem_pair.mp isRule with rfl | rfl
    · cases isMode
    · cases isPath
      revert isMatch
      decide

end Lemming.Pathz
