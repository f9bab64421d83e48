import Lemming.Protocol.Compact

set_option autoImplicit false

namespace Lemming.Protocol

open Shared Lemming.Packet

namespace Packet

variable {packet packet' : Packet} {op : Operation} {handler handler' : Handler Slice} {id : HeaderId}
  {heap' : Heap UInt8}

-- How an operation can come by a handler that the packet did not have.
inductive Derives (packet : Packet) (op : Operation) : Handler Slice → Prop
  | updated {desc : Desc Slice} {handler : Handler Slice} (mem : desc ∈ packet.headers)
    (form : ¬ packet.Adds op → handler.form = desc.handler.form) : Derives packet op handler
  | stripped {desc : Desc Slice} {linked : Bool} {headers : List (IPHeader Slice)}
    (mem : desc ∈ packet.headers) (isIP : desc.handler = .ip linked headers) :
    Derives packet op (.ip linked headers.tail)
  | wrapped {desc : Desc Slice} {linked : Bool} {headers : List (IPHeader Slice)}
    {outer : IPHeader Slice} {heap' : Heap UInt8} (mem : desc ∈ packet.headers)
    (isIP : desc.handler = .ip linked headers) (inside : IPHeader.InsideAll packet.heap headers)
    (made : outer.Made packet.heap heap') : Derives packet op (.ip linked (outer :: headers))
  | plain {handler : Handler Slice} (notIP : ∀ linked headers, handler ≠ .ip linked headers) :
    Derives packet op handler

section Handlers

variable {desc : Desc Slice} (sound : packet.Sound) (mem : desc ∈ packet.headers)
include sound mem

theorem Derives.remove (isOk : desc.handler.remove packet.heap id = .ok (heap', handler'))
    (remains : (handler'.header heap').2.length ≠ 0) : packet.Derives op handler' := by
  have shaped := (sound.sound desc mem).1
  cases isHandler : desc.handler with
  | ip linked headers =>
    rw [isHandler] at isOk shaped
    obtain ⟨headers', removed, same⟩ := Outcome.bind_eq_ok.mp isOk
    obtain rfl := (IPHeader.remove_allows shaped.2.1 id).whenever _ removed
    cases same
    exact .stripped mem isHandler
  | ethernet eth =>
    rw [isHandler] at isOk
    obtain ⟨_, -, same⟩ := Outcome.bind_eq_ok.mp isOk
    cases same
    exact .plain nofun
  | tcp header | udp header =>
    rw [isHandler, Handler.remove] at isOk
    split at isOk
    · cases isOk
    · cases isOk
      -- What is left is an empty header.
      exact absurd (by simp [Handler.header, Slice.nil, Slice.get, slice]) remains
  | _ =>
    rw [isHandler] at isOk
    cases isOk

theorem Derives.modify (isOk : desc.handler.modify packet.heap id = .ok (heap', handler')) :
    packet.Derives op handler' := by
  have inside := sound.inside desc mem
  have shaped := (sound.sound desc mem).1
  cases isHandler : desc.handler with
  | ip linked headers =>
    rw [isHandler] at isOk inside shaped
    obtain ⟨⟨heap₁, headers'⟩, modified, same⟩ := Outcome.bind_eq_ok.mp isOk
    obtain ⟨outer, rfl, made⟩ :=
      (IPHeader.modify_allows shaped.2.1 inside.headers shaped.2.2 id).whenever _ modified
    cases same
    exact .wrapped mem isHandler inside.headers made
  | ethernet eth =>
    rw [isHandler] at isOk
    obtain ⟨_, -, same⟩ := Outcome.bind_eq_ok.mp isOk
    cases same
    exact .plain nofun
  | _ =>
    rw [isHandler] at isOk
    cases isOk

end Handlers

-- But for one handler, an operation leaves the headers as they were, up to their contents.
theorem apply_derives (sound : packet.Sound) (isOk : packet.apply op = .ok packet') :
    packet'.Sound ∧ ∃ (headers : List (Desc Slice)) (changed : Desc Slice),
      packet'.headers.map Desc.form = headers.map Desc.form ∧
      (∀ desc ∈ headers, desc ∈ packet.headers ∨ desc = changed) ∧
      packet.Derives op changed.handler := by
  cases op with
  | update id op arg =>
    refine ⟨(update_effect sound isOk).1, ?_⟩
    obtain ⟨heap, group, id', above, desc, below, heap', handler', dirty, isField, found, updated,
      rfl⟩ := update_cases isOk
    obtain ⟨isHeaders, mem, -⟩ := sound.slot_eq found
    obtain ⟨only, -⟩ := fieldDesc_only sound.inside id _ isField
    have inside := (sound.inside desc mem).grown only.1
    have shaped := (sound.sound desc mem).1
    refine ⟨_, _, rfl, mem_replaced isHeaders, .updated mem fun plain => ?_⟩
    exact (Handler.updateField_effect inside shaped op arg _ updated).1.form
      (mt (sound.extends_iff isField found).mpr plain)
  | decap id =>
    refine ⟨(decap_spliced sound isOk).sound, ?_⟩
    obtain ⟨above, desc, below, heap₁, handler₁, found, removed, rebuilt⟩ := decap_cases isOk
    obtain ⟨isHeaders, mem, -⟩ := sound.slot_eq found
    obtain ⟨-, sound'⟩ := sound.removed found removed
    have forms := rebuildHeaders_form sound' rebuilt
    split at forms
    · refine ⟨_, desc, forms, fun other isOther => Or.inl ?_, .updated mem fun _ => rfl⟩
      rw [isHeaders]
      simp only [List.mem_append, List.mem_cons] at isOther ⊢
      tauto
    · next remains =>
      exact ⟨_, _, forms, mem_replaced isHeaders, .remove sound mem removed remains⟩
  | encap id =>
    refine ⟨(encap_spliced sound isOk).sound, ?_⟩
    rcases encap_cases isOk with
      ⟨above, desc, below, heap₁, handler₁, found, modified, rebuilt⟩ |
      ⟨group, above, prev, below, added, heap₁, handler₁, missing, isBefore, isPrev, isAdded, isMade,
        rebuilt⟩
    · obtain ⟨isHeaders, mem, -⟩ := sound.slot_eq found
      obtain ⟨-, sound'⟩ := sound.modified found modified
      exact ⟨_, _, rebuildHeaders_form sound' rebuilt, mem_replaced isHeaders,
        .modify sound mem modified⟩
    · obtain ⟨notIP, isPlain⟩ := added_not_ip isAdded isMade rebuilt
      have sound' := sound.added missing isBefore isPrev isAdded isMade notIP
      obtain ⟨isHeaders, -⟩ := sound.slot_eq isPrev
      exact ⟨_, _, rebuildHeaders_form sound' rebuilt, mem_added isHeaders, .plain isPlain⟩

theorem Each.apply {Q : List (IPHeader Slice) → Prop} (kept : IPHeader.Kept Q) (sound : packet.Sound)
    (each : packet.Each Q) (plain : ¬ packet.Adds op) (isOk : packet.apply op = .ok packet') :
    packet'.Sound ∧ packet'.Each Q := by
  obtain ⟨sound', headers, changed, forms, known, derives⟩ := apply_derives sound isOk
  refine ⟨sound', fun desc' mem' => ?_⟩
  obtain ⟨desc, isDesc, isForm⟩ := exists_of_map_eq forms mem'
  refine Handler.Each.form kept (congrArg Prod.snd isForm).symm ?_
  rcases known desc isDesc with old | rfl
  · exact each desc old
  · generalize desc.handler = handler at derives
    cases derives with
    | updated mem form => exact (each _ mem).form kept (form plain)
    | stripped mem isIP =>
      rintro _ _ ⟨⟩
      exact kept.tail (each _ mem _ _ isIP)
    | wrapped mem isIP inside made =>
      rintro _ _ ⟨⟩
      exact kept.made inside made (each _ mem _ _ isIP)
    | plain notIP => exact fun linked headers isIP => absurd isIP (notIP linked headers)

theorem Sound.along {P : Packet → Prop} (holds : ∀ packet : Packet, packet.Sound → P packet)
    {ops : List Operation} (sound : packet.Sound) : packet.Along P ops := by
  induction ops generalizing packet with
  | nil => exact holds packet sound
  | cons op ops ih => exact ⟨holds packet sound, fun next isOk => ih (apply_derives sound isOk).1⟩

theorem newPacket_sound {fuel : Nat} {start : HeaderId} {bytes spare : Bytes}
    (parsed : newPacket fuel start bytes spare = .ok packet) : packet.Sound := by
  obtain ⟨descs, tail, -, fresh, covered⟩ := Packet.newPacket_ok parsed
  exact (fresh.sound covered).1

theorem edited_frames (fuel : Nat) (start : HeaderId) (bytes spare : Bytes) (ops : List Operation) :
    (newPacket fuel start bytes spare).Whenever (Along (fun packet =>
      packet.frame.Yields fun out => out.1.length = packet.size) ops) := by
  intro packet parsed
  exact (newPacket_sound parsed).along fun _ sound => (frame_yields sound).imp fun _ => And.left

end Packet

end Lemming.Protocol
