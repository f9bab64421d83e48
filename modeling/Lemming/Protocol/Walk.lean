import Lemming.Protocol.Readers

set_option autoImplicit false

namespace Lemming.Protocol

open Shared Lemming.Packet

abbrev Layers := List (HeaderId × Bytes)

theorem packetFormat_deterministic : packetFormat.Deterministic where
  reads := by
    intro id header rest header' rest' same reads reads'
    have reads : Reads id header rest := reads
    have reads' : Reads id header' rest' := reads'
    have length := reads.size_eq
    rw [same, ← reads'.size_eq] at length
    exact (List.append_inj same length).1
  stop := fun _ _ _ _ reads => reads

-- How reading a frame from a header of a kind on can end. An error names the place where no header of
-- the kind that is due can be read, a crash the short IPv4 header.
inductive Walk {β : Type} (few : Prop) (Done : β → Layers → HeaderId → Bytes → Prop)
    (id : HeaderId) (frame : Bytes) : Outcome β → Prop where
  | read {value : β} {layers : Layers} {next : HeaderId} {rest : Bytes}
      (path : packetFormat.Path id frame layers next rest) (is : Done value layers next rest) :
      Walk few Done id frame (.ok value)
  | refuse (message : String) {target : HeaderId} {rest : Bytes}
      (path : packetFormat.Reaches id frame target rest) (final : packetFormat.Final target rest)
      (due : target ≠ .none) (long : target = .ip4 → ¬ ShortIP4 rest) :
      Walk few Done id frame (.error message)
  | crash {rest : Bytes} (path : packetFormat.Reaches id frame .ip4 rest) (short : ShortIP4 rest) :
      Walk few Done id frame .panic
  | exhaust (tooFew : few) : Walk few Done id frame .diverge

theorem Walk.after {β γ : Type} {few few' : Prop} {Done : β → Layers → HeaderId → Bytes → Prop}
    {Done' : γ → Layers → HeaderId → Bytes → Prop} {id middle : HeaderId} {frame between : Bytes}
    {passed : Layers} {outcome : Outcome β} (f : β → γ)
    (path : packetFormat.Path id frame passed middle between)
    (walk : Walk few Done middle between outcome) (fewer : few → few')
    (is : ∀ value layers next rest, Done value layers next rest →
      Done' (f value) (passed ++ layers) next rest) :
    Walk few' Done' id frame (outcome >>= fun value => pure (f value)) := by
  cases walk with
  | read onward done => exact .read (path.append onward) (is _ _ _ _ done)
  | refuse message reached final due long =>
    obtain ⟨layers, onward⟩ := reached
    exact .refuse message ⟨_, path.append onward⟩ final due long
  | crash reached short =>
    obtain ⟨layers, onward⟩ := reached
    exact .crash ⟨_, path.append onward⟩ short
  | exhaust tooFew => exact .exhaust (fewer tooFew)

theorem Walk.imp {β : Type} {few few' : Prop} {Done Done' : β → Layers → HeaderId → Bytes → Prop}
    {id : HeaderId} {frame : Bytes} {outcome : Outcome β} (walk : Walk few Done id frame outcome)
    (fewer : few → few')
    (is : ∀ value layers next rest, packetFormat.Path id frame layers next rest →
      Done value layers next rest → Done' value layers next rest) :
    Walk few' Done' id frame outcome := by
  cases walk with
  | read path done => exact .read path (is _ _ _ _ path done)
  | refuse message reached final due long => exact .refuse message reached final due long
  | crash reached short => exact .crash reached short
  | exhaust tooFew => exact .exhaust (fewer tooFew)

section Tunnel

def Hands {α : Type} (built : α → Layers → Prop) (parsed : Parsed α) (layers : Layers)
    (next : HeaderId) (rest : Bytes) : Prop :=
  parsed.2 = (next, rest) ∧ ¬ next.InTunnel ∧ built parsed.1 layers

def IPHeader.Are (headers : List (IPHeader Bytes)) (layers : Layers) : Prop :=
  headers.map IPHeader.layer = layers ∧ ∀ header ∈ headers, header.Shaped List.length

theorem makeHeader_cases (id : HeaderId) :
    makeHeader id = none ∧ ¬ id.InTunnel ∨
      ∃ make, makeHeader id = some make ∧ id.InTunnel ∧
        ∀ passes frame, Cut passes (IPHeader.Is id) id frame (make frame) := by
  cases id with
  | ip4 => exact Or.inr ⟨_, rfl, by decide, makeIP4_cut⟩
  | ip6 => exact Or.inr ⟨_, rfl, by decide, makeIP6_cut⟩
  | gre => exact Or.inr ⟨_, rfl, by decide, makeGRE_cut⟩
  | _ => exact Or.inl ⟨rfl, by simp [HeaderId.InTunnel]⟩

theorem Walk.header {id : HeaderId} {frame : Bytes} {made : Outcome (Parsed (IPHeader Bytes))} {γ : Type}
    {fuel : Nat} {next : HeaderId → Bytes → Outcome (Parsed (List (IPHeader Bytes)))}
    {built : γ → Layers → Prop} (f : List (IPHeader Bytes) → γ) (inTunnel : id.InTunnel)
    (cut : Cut (frame.length + 1) (IPHeader.Is id) id frame made)
    (walk : ∀ after rest, Walk (fuel ≤ rest.length) (Hands IPHeader.Are)
      (if rest = [] then .none else after) rest (next after rest))
    (is : ∀ headers layers, IPHeader.Are headers layers → built (f headers) layers) :
    Walk (fuel + 1 ≤ frame.length) (Hands built) id frame (do
      let (header, after, rest) ← made
      let (headers, after, rest) ← next after rest
      return (f (header :: headers), after, rest)) := by
  cases cut with
  | @read header bytes rest cut reads is' =>
    have isNext : packetFormat.next id bytes rest = if rest = [] then .none else follow id bytes := by
      simp [packetFormat, inTunnel]
    have path : packetFormat.Path id frame [(id, bytes)]
        (if rest = [] then .none else follow id bytes) rest := by
      rw [cut, ← isNext]
      exact .header reads (.here _ _)
    have nonempty : 4 ≤ bytes.length := by
      have minimum := reads.minimum_le
      rcases inTunnel with rfl | rfl | rfl <;> simp only [minimumSize] at minimum <;> omega
    refine Walk.after (fun parsed => (f (header :: parsed.1), parsed.2)) path
      (walk (follow id bytes) rest) (fun few => ?_) ?_
    · rw [cut, List.length_append]
      omega
    · rintro ⟨headers, after⟩ layers target unread ⟨handed, outside, same, fits⟩
      refine ⟨handed, outside, is _ _ ⟨?_, ?_⟩⟩
      · rw [List.map_cons, is'.1, same]
        rfl
      · intro other mem
        rcases List.mem_cons.mp mem with rfl | inner
        · exact is'.2
        · exact fits other inner
  | refuse message final long =>
    refine .refuse message ⟨_, .here _ _⟩ final ?_ long
    rcases inTunnel with rfl | rfl | rfl <;> decide
  | crash isIP4 short =>
    subst isIP4
    exact .crash ⟨_, .here _ _⟩ short
  | exhaust few => omega

theorem parseTunnel_walk (fuel : Nat) : ∀ (next : HeaderId) (frame : Bytes),
    Walk (fuel ≤ frame.length) (Hands IPHeader.Are) (if frame = [] then .none else next) frame
      (parseTunnel fuel next frame) := by
  induction fuel with
  | zero =>
    intro next frame
    by_cases empty : frame = []
    · subst empty
      rw [if_pos rfl]
      exact .read (.here _ _) ⟨rfl, by decide, rfl, nofun⟩
    · have nonempty : frame.length ≠ 0 := by simpa using empty
      rw [parseTunnel, if_neg nonempty]
      exact .exhaust (Nat.zero_le _)
  | succ fuel ih =>
    intro next frame
    by_cases empty : frame = []
    · subst empty
      rw [if_pos rfl]
      exact .read (.here _ _) ⟨rfl, by decide, rfl, nofun⟩
    · have nonempty : frame.length ≠ 0 := by simpa using empty
      rw [parseTunnel, if_neg nonempty, if_neg empty]
      rcases makeHeader_cases next with ⟨isNone, outside⟩ | ⟨make, isMake, inTunnel, cut⟩
      · rw [isNone]
        exact .read (.here _ _) ⟨rfl, outside, rfl, nofun⟩
      · rw [isMake]
        exact Walk.header (fun headers => headers) inTunnel (cut _ _) ih fun _ _ are => are

end Tunnel

section Steps

def HeaderId.rank : HeaderId → Nat
  | .none => 5
  | .arp | .icmp4 | .icmp6 | .opaqueData => 4
  | .tcp | .udp => 3
  | .ip4 | .ip6 | .ip => 2
  | .ethernet | .ethernetVlan | .ethernet1Q => 1
  | _ => 0

def HeaderId.Plain (id : HeaderId) : Prop :=
  id ∈ [.ip4, .ip6, .tcp, .udp, .arp, .icmp4, .icmp6, .opaqueData, .none]

theorem lookup_mem (table : List (Nat × HeaderId)) (n : Nat) (default : HeaderId) :
    (table.lookup n).getD default ∈ default :: table.map Prod.snd := by
  induction table with
  | nil => simp
  | cons entry table ih =>
    obtain ⟨key, id⟩ := entry
    rw [List.lookup_cons]
    split
    · simp
    · simp only [List.mem_cons, List.map_cons] at ih ⊢
      tauto

variable {id : HeaderId}

theorem next_inTunnel (inTunnel : id.InTunnel) (header rest : Bytes) :
    (packetFormat.next id header rest).InTunnel ∨
      (packetFormat.next id header rest).Plain ∧ 2 < (packetFormat.next id header rest).rank := by
  have ofProto : ∀ next ∈ HeaderId.opaqueData :: protoHeader.map Prod.snd,
      next.InTunnel ∨ next.Plain ∧ 2 < next.rank := by
    simp only [HeaderId.Plain]
    decide
  have ofNext : ∀ next ∈ HeaderId.opaqueData :: nextHeader.map Prod.snd,
      next.InTunnel ∨ next.Plain ∧ 2 < next.rank := by
    simp only [HeaderId.Plain]
    decide
  simp only [packetFormat]
  split
  · exact Or.inr ⟨by simp [HeaderId.Plain], by decide⟩
  · rcases inTunnel with rfl | rfl | rfl
    · exact ofProto _ (lookup_mem _ _ _)
    · exact ofProto _ (lookup_mem _ _ _)
    · exact ofNext _ (lookup_mem _ _ _)

variable {frame : Bytes}

theorem path_outside {next : HeaderId} {rest : Bytes} {layers : Layers}
    (path : packetFormat.Path id frame layers next rest) (inTunnel : id.InTunnel)
    (outside : ¬ next.InTunnel) (inside : ∀ layer ∈ layers, layer.1.InTunnel) :
    next.Plain ∧ 2 < next.rank := by
  induction path with
  | here => exact absurd inTunnel outside
  | @header id target header after rest layers reads onward ih =>
    by_cases more : (packetFormat.next id header after).InTunnel
    · exact ih more outside fun layer mem => inside layer (List.mem_cons_of_mem _ mem)
    · cases onward with
      | here => exact (next_inTunnel inTunnel header after).resolve_left outside
      | header =>
        exact absurd (inside _ (List.mem_cons_of_mem _ List.mem_cons_self)) more

def Steps (currID : HeaderId) (parsed : Parsed (Handler Bytes)) (layers : Layers) (next : HeaderId)
    (rest : Bytes) : Prop :=
  parsed.2 = (next, rest) ∧ (next.Plain ∧ currID.rank < next.rank) ∧
    parsed.1.layers = layers ∧ layers ≠ [] ∧ parsed.1.Fits ∧ parsed.1.group = currID.group

variable {currID : HeaderId}

theorem Cut.walk {limit : Nat} {outcome : Outcome (Parsed (Handler Bytes))}
    (cut : Cut limit (Handler.Is id) id frame outcome) (outside : ¬ id.InTunnel) (due : id ≠ .none)
    (same : id.group = currID.group)
    (onward : ∀ header, (follow id header).Plain ∧ currID.rank < (follow id header).rank) :
    Walk (limit ≤ frame.length) (Steps currID) id frame outcome := by
  cases cut with
  | @read handler header rest cut reads is =>
    have isNext : packetFormat.next id header rest = follow id header := by
      simp [packetFormat, outside]
    have path : packetFormat.Path id frame [(id, header)] (follow id header) rest := by
      rw [cut, ← isNext]
      exact .header reads (.here _ _)
    exact .read path ⟨rfl, onward header, is.1, by simp, is.2.1, is.2.2.trans same⟩
  | refuse message final long => exact .refuse message ⟨_, .here _ _⟩ final due long
  | crash isIP4 short => exact absurd (Or.inl isIP4) outside
  | exhaust few => exact .exhaust few

theorem parseL3_walk {limit : Nat} {made : Outcome (Parsed (IPHeader Bytes))}
    (inTunnel : id.InTunnel) (isRank : currID.rank = 2) (isGroup : currID.group = .l3)
    (cut : Cut (frame.length + 1) (IPHeader.Is id) id frame made) :
    Walk (limit ≤ frame.length) (Steps currID) id frame (parseL3 limit made) := by
  have walk : Walk (limit + 1 ≤ frame.length)
      (Hands fun handler layers =>
        ∃ headers, handler = .ip true headers ∧ IPHeader.Are headers layers)
      id frame (parseL3 limit made) :=
    Walk.header (Handler.ip true) inTunnel cut (parseTunnel_walk limit)
      fun headers layers are => ⟨headers, rfl, are⟩
  refine walk.imp Nat.le_of_succ_le ?_
  rintro ⟨handler, after⟩ layers next rest path ⟨handed, outside, headers, rfl, same, fits⟩
  have inside : ∀ layer ∈ layers, layer.1.InTunnel := by
    intro layer mem
    rw [← same] at mem
    obtain ⟨header, -, rfl⟩ := List.mem_map.mp mem
    cases header <;> simp [IPHeader.layer, IPHeader.id, HeaderId.InTunnel]
  obtain ⟨plain, above⟩ := path_outside path inTunnel outside inside
  have nonempty : layers ≠ [] := by
    rintro rfl
    cases path
    exact outside inTunnel
  refine ⟨handed, ⟨plain, isRank ▸ above⟩, same, nonempty, ⟨rfl, ?_, fits⟩, isGroup.symm⟩
  rintro rfl
  exact nonempty same.symm

theorem Walk.refuse_ip {β : Type} {few : Prop} {Done : β → Layers → HeaderId → Bytes → Prop}
    (frame : Bytes) (message : String) : Walk few Done .ip frame (.error message) :=
  .refuse message ⟨_, .here _ _⟩ (fun _ _ _ reads => reads) (by decide) nofun

theorem parseIP_walk (limit : Nat) (frame : Bytes) :
    Walk (limit ≤ frame.length) (Steps .ip) (resolve .ip frame) frame (parseIP limit frame) := by
  rcases Nat.lt_or_ge frame.length (0 + 1) with short | nonempty
  · obtain rfl : frame = [] := List.length_eq_zero_iff.mp (by omega)
    exact Walk.refuse_ip [] _
  · obtain ⟨bits, picked, version⟩ := peek_bits nonempty (by decide) 4 4 (by decide) (by decide)
    have length : (slice frame 0 1).length = 1 := slice_length nonempty
    have isVersion : octetsValue (slice frame 0 1) / 2 ^ 4 % 2 ^ 4 = ipVersion frame := by
      have bound := octetsValue_lt (slice frame 0 1)
      rw [length] at bound
      rw [ipVersion]
      omega
    have field : Header.field (slice frame 0 1) 0 1 = slice frame 0 1 := by
      rw [field_inside (by omega), slice, List.drop_zero, List.take_of_length_le (by omega)]
    rw [isVersion] at version
    simp only [parseIP, peek_ok nonempty, Outcome.wrap_ok, Outcome.ok_bind, field, picked, version,
      resolve]
    split
    · exact parseL3_walk (Or.inl rfl) rfl rfl (makeIP4_cut _ _)
    · split
      · exact parseL3_walk (Or.inr (Or.inl rfl)) rfl rfl (makeIP6_cut _ _)
      · exact Walk.refuse_ip _ _

theorem parseEthernet_walk (isRank : currID.rank = 1) (isGroup : currID.group = .l2) (limit : Nat)
    (frame : Bytes) :
    Walk (limit ≤ frame.length) (Steps currID) (resolve .ethernet frame) frame
      (parseEthernet frame) := by
  have isEthernet : resolve .ethernet frame = .ethernet ∨
      resolve .ethernet frame = .ethernetVlan ∨ resolve .ethernet frame = .ethernet1Q :=
    newEthernet_id _
  have known : ∀ id, id = .ethernet ∨ id = .ethernetVlan ∨ id = .ethernet1Q →
      ¬ id.InTunnel ∧ id ≠ .none ∧ id.group = .l2 ∧
        ∀ header, follow id header ∈ HeaderId.opaqueData :: nextHeader.map Prod.snd := by
    rintro id (rfl | rfl | rfl) <;> exact ⟨by decide, by decide, rfl, fun _ => lookup_mem _ _ _⟩
  have plain : ∀ next ∈ HeaderId.opaqueData :: nextHeader.map Prod.snd,
      next.Plain ∧ 1 < next.rank := by
    simp only [HeaderId.Plain]
    decide
  obtain ⟨outside, due, same, follows⟩ := known _ isEthernet
  exact (parseEthernet_cut limit frame).walk outside due (same.trans isGroup.symm) fun header =>
    isRank ▸ plain _ (follows header)

theorem follow_plain (payload : id ∈ [HeaderId.tcp, .udp, .arp, .icmp4, .icmp6, .opaqueData])
    (header : Bytes) :
    (follow id header).Plain ∧ id.rank < (follow id header).rank := by
  simp only [List.mem_cons, List.not_mem_nil, or_false] at payload
  rcases payload with rfl | rfl | rfl | rfl | rfl | rfl <;>
    simp [follow, HeaderId.Plain, HeaderId.rank]

theorem registered_walk {limit : Nat} {parse : Bytes → Outcome (Parsed (Handler Bytes))}
    (isParse : registered limit currID = some parse) (notMetadata : currID ≠ .metadata)
    (frame : Bytes) :
    Walk (limit ≤ frame.length) (Steps currID) (resolve currID frame) frame (parse frame) := by
  cases currID with
  | metadata => exact absurd rfl notMetadata
  | ethernet | ethernetVlan => cases isParse; exact parseEthernet_walk rfl rfl limit frame
  | ethernet1Q => cases isParse; exact parseEthernet_walk rfl rfl limit frame
  | ip4 => cases isParse; exact parseL3_walk (Or.inl rfl) rfl rfl (makeIP4_cut _ _)
  | ip6 => cases isParse; exact parseL3_walk (Or.inr (Or.inl rfl)) rfl rfl (makeIP6_cut _ _)
  | ip => cases isParse; exact parseIP_walk limit frame
  | tcp =>
    cases isParse
    exact (parseTCP_cut _ _).walk (by decide) (by decide) rfl (follow_plain (by decide))
  | udp =>
    cases isParse
    exact (parseUDP_cut _ _).walk (by decide) (by decide) rfl (follow_plain (by decide))
  | arp =>
    cases isParse
    exact (parseARP_cut _ _).walk (by decide) (by decide) rfl (follow_plain (by decide))
  | icmp4 =>
    cases isParse
    exact (parseICMP4_cut _ _).walk (by decide) (by decide) rfl (follow_plain (by decide))
  | icmp6 =>
    cases isParse
    exact (parseICMP6_cut _ _).walk (by decide) (by decide) rfl (follow_plain (by decide))
  | opaqueData =>
    cases isParse
    exact (parseOpaque_cut _ _).walk (by decide) (by decide) rfl (follow_plain (by decide))
  | _ => cases isParse

end Steps

section Loop

def Desc.Fresh (desc : Desc Bytes) : Prop :=
  desc.handler.layers ≠ [] ∧ desc.handler.Fits ∧ desc.group = desc.handler.group ∧
    desc.dirty = false

def layersOf (descs : List (Desc Bytes)) : Layers :=
  descs.flatMap fun desc => desc.handler.layers

def Complete (low : Nat) (descs : List (Desc Bytes)) (layers : Layers) (next : HeaderId)
    (_rest : Bytes) : Prop :=
  next = .none ∧ layersOf descs = layers ∧ (∀ desc ∈ descs, desc.Fresh) ∧ Desc.Ordered low descs

variable {id : HeaderId}

theorem resolve_plain (plain : id.Plain) (frame : Bytes) : resolve id frame = id := by
  simp only [HeaderId.Plain, List.mem_cons, List.not_mem_nil, or_false] at plain
  rcases plain with rfl | rfl | rfl | rfl | rfl | rfl | rfl | rfl | rfl <;> rfl

theorem plain_ne_metadata (plain : id.Plain) : id ≠ .metadata := by
  rintro rfl
  simp [HeaderId.Plain] at plain

theorem rank_lt (due : id ≠ .none) : id.rank < 5 := by
  cases id with
  | none => exact absurd rfl due
  | _ => simp [HeaderId.rank]

theorem rank_registered {limit : Nat} {parse : Bytes → Outcome (Parsed (Handler Bytes))}
    (isParse : registered limit id = some parse) : id.rank = id.group.position := by
  cases id with
  | unspecified | none | gre | tunnel6to4Auto | tunnel6to4Secure | count | unnamed => cases isParse
  | _ => rfl

theorem final_of_unregistered {limit : Nat} (unknown : registered limit id = none) (frame : Bytes) :
    packetFormat.Final (resolve id frame) frame ∧ resolve id frame ≠ .ip4 ∧
      (id ≠ .none → resolve id frame ≠ .none) := by
  cases id with
  | none => exact ⟨fun _ _ _ reads => reads, nofun, fun due => absurd rfl due⟩
  | unspecified | gre | tunnel6to4Auto | tunnel6to4Secure | count | unnamed =>
    exact ⟨fun _ _ _ reads => reads, nofun, fun _ => nofun⟩
  | _ => cases unknown

theorem parseLoop_walk (limit : Nat) (start : HeaderId) (fuel : Nat) :
    ∀ (currID : HeaderId) (frame : Bytes), currID ≠ .metadata →
      Walk (limit ≤ frame.length ∨ fuel + currID.rank < 5) (Complete currID.rank)
        (resolve currID frame) frame (parseLoop limit start fuel currID frame) := by
  induction fuel with
  | zero =>
    intro currID frame notMetadata
    by_cases done : currID = .none
    · subst done
      exact .read (.here _ _) ⟨rfl, rfl, nofun, trivial⟩
    · rw [parseLoop, if_neg done]
      exact .exhaust (Or.inr (by simpa using rank_lt done))
  | succ fuel ih =>
    intro currID frame notMetadata
    by_cases done : currID = .none
    · subst done
      exact .read (.here _ _) ⟨rfl, rfl, nofun, trivial⟩
    · rw [parseLoop, if_neg done]
      cases isParse : registered limit currID with
      | none =>
        obtain ⟨final, notIP4, due⟩ := final_of_unregistered isParse frame
        exact .refuse _ ⟨_, .here _ _⟩ final (due done) fun isIP4 => absurd isIP4 notIP4
      | some parse =>
        have walk := registered_walk isParse notMetadata frame
        dsimp only
        generalize parse frame = outcome at walk ⊢
        cases walk with
        | @read value layers next rest path is =>
          obtain ⟨handler, after⟩ := value
          obtain ⟨rfl, ⟨plain, above⟩, isLayers, nonempty, fits, isGroup⟩ := is
          simp only [Outcome.wrap_ok, Outcome.ok_bind, if_neg notMetadata]
          have onward := ih next rest (plain_ne_metadata plain)
          rw [resolve_plain plain] at onward
          refine Walk.after _ path onward ?_ ?_
          · rintro (few | few)
            · rw [path.frame_eq, List.length_append]
              exact Or.inl (by omega)
            · exact Or.inr (by omega)
          · rintro descs below target unread ⟨isEnd, same, fresh, ordered⟩
            have isRank := rank_registered isParse
            refine ⟨isEnd, ?_, ?_, Nat.le_of_eq isRank, ordered.mono (by dsimp only; omega)⟩
            · rw [← same, ← isLayers]
              rfl
            · intro desc mem
              rcases List.mem_cons.mp mem with rfl | later
              · exact ⟨isLayers ▸ nonempty, fits, isGroup.symm, rfl⟩
              · exact fresh desc later
        | refuse message reached final due long =>
          exact .refuse _ reached final due long
        | crash reached short => exact .crash reached short
        | exhaust few => exact .exhaust (Or.inl few)

end Loop

def metadataDesc (length : Nat) : Desc Slice :=
  ⟨.packet, .metadata (newMetadata length), false⟩

structure Packet.Fresh (packet : Packet) (start : HeaderId) (bytes spare : Bytes)
    (descs : List (Desc Bytes)) : Prop where
  packet_eq : packet = ⟨start, [bytes ++ spare], metadataDesc bytes.length :: Desc.placeAll 0 descs⟩
  ordered : Desc.Ordered 1 descs
  fresh : ∀ desc ∈ descs, desc.Fresh

theorem newPacket_succ (fuel : Nat) (start : HeaderId) (bytes spare : Bytes) :
    newPacket (fuel + 1) start bytes spare = (do
      let descs ← parseLoop (fuel + 1) start fuel start bytes
      return ⟨start, [bytes ++ spare], metadataDesc bytes.length :: Desc.placeAll 0 descs⟩) := by
  rw [newPacket, parseLoop]
  simp only [registered, parseMetadata, reduceCtorEq, if_false, if_true, Outcome.wrap_ok,
    Outcome.ok_bind]
  cases parseLoop (fuel + 1) start fuel start bytes <;> rfl

theorem ordered_of_fresh {low : Nat} {descs : List (Desc Bytes)} (ordered : Desc.Ordered low descs)
    (fresh : ∀ desc ∈ descs, desc.Fresh) : Desc.Ordered 1 descs := by
  cases descs with
  | nil => trivial
  | cons desc below =>
    refine ⟨?_, ordered.2⟩
    obtain ⟨nonempty, -, isGroup, -⟩ := fresh desc List.mem_cons_self
    rw [isGroup]
    cases isHandler : desc.handler with
    | metadata md =>
      rw [isHandler] at nonempty
      exact absurd rfl nonempty
    | _ => simp [Handler.group, HeaderGroup.position]

theorem newPacket_walk {start : HeaderId} (notMetadata : start ≠ .metadata) (fuel : Nat)
    (bytes spare : Bytes) :
    Walk (fuel ≤ bytes.length ∨ fuel < 6)
      (fun packet layers next _ => next = .none ∧
        ∃ descs, packet.Fresh start bytes spare descs ∧ layersOf descs = layers)
      (resolve start bytes) bytes (newPacket fuel start bytes spare) := by
  cases fuel with
  | zero => exact .exhaust (Or.inr (by decide))
  | succ fuel =>
    rw [newPacket_succ]
    refine Walk.after _ (.here _ _)
      (parseLoop_walk (fuel + 1) start fuel start bytes notMetadata) ?_ ?_
    · rintro (few | few)
      · exact Or.inl few
      · exact Or.inr (by omega)
    · rintro descs layers next rest ⟨isEnd, same, fresh, ordered⟩
      exact ⟨isEnd, descs, ⟨rfl, ordered_of_fresh ordered fresh, fresh⟩, same⟩

theorem shortIP4_final {rest : Bytes} (short : ShortIP4 rest) : packetFormat.Final .ip4 rest := by
  rintro header after rfl ⟨large, size⟩
  have small := short.2.1
  rw [ihl_append (by omega)] at small
  omega

theorem newPacket_panics {start : HeaderId} {bytes rest : Bytes} (spare : Bytes)
    (reached : packetFormat.Reaches (resolve start bytes) bytes .ip4 rest)
    (short : ShortIP4 rest) : newPacket (bytes.length + 6) start bytes spare = .panic := by
  obtain ⟨layers, path⟩ := reached
  have notMetadata : start ≠ .metadata := by
    rintro rfl
    cases path with
    | header reads => exact reads.elim
  have final := shortIP4_final short
  have walk := newPacket_walk notMetadata (bytes.length + 6) bytes spare
  generalize newPacket (bytes.length + 6) start bytes spare = outcome at walk ⊢
  cases walk with
  | read whole is =>
    obtain ⟨rfl, -⟩ := is
    have same := path.unique packetFormat_deterministic final whole
      (packetFormat_deterministic.stop _)
    exact absurd same.2.1 (by decide)
  | refuse message other otherFinal due long =>
    obtain ⟨_, other⟩ := other
    obtain ⟨-, rfl, rfl⟩ := path.unique packetFormat_deterministic final other otherFinal
    exact absurd short (long rfl)
  | crash => rfl
  | exhaust few => omega

theorem newPacket_metadata (fuel : Nat) (bytes spare : Bytes) :
    newPacket fuel .metadata bytes spare = .diverge := by
  have loop : ∀ limit fuel, parseLoop limit .metadata fuel .metadata bytes = .diverge := by
    intro limit fuel
    induction fuel with
    | zero => rfl
    | succ fuel ih =>
      rw [parseLoop]
      simp [registered, parseMetadata, ih]
  rw [newPacket, loop]
  rfl

theorem newPacket_never_panics_iff (start : HeaderId) (bytes spare : Bytes) :
    (∀ fuel, newPacket fuel start bytes spare ≠ .panic) ↔
      ∀ rest, packetFormat.Reaches (resolve start bytes) bytes .ip4 rest → ¬ ShortIP4 rest := by
  constructor
  · intro never rest reached short
    exact never _ (newPacket_panics spare reached short)
  · intro long fuel panics
    by_cases isMetadata : start = .metadata
    · subst isMetadata
      rw [newPacket_metadata] at panics
      cases panics
    · have walk := newPacket_walk isMetadata fuel bytes spare
      rw [panics] at walk
      cases walk with
      | crash reached short => exact long _ reached short

def shortHeaderFrame : Bytes :=
  List.replicate 12 0 ++ [0x08, 0x00, 0x40]

theorem newPacket_short_header : newPacket 3 .ethernet shortHeaderFrame [] = .panic := by
  decide +kernel

theorem newPacket_terminates_iff (start : HeaderId) (bytes spare : Bytes) :
    (∃ fuel ≤ bytes.length + 6, newPacket fuel start bytes spare ≠ .diverge) ↔ start ≠ .metadata := by
  constructor
  · rintro ⟨fuel, -, ends⟩ rfl
    exact ends (newPacket_metadata fuel bytes spare)
  · intro notMetadata
    refine ⟨bytes.length + 6, Nat.le_refl _, fun diverges => ?_⟩
    have walk := newPacket_walk notMetadata (bytes.length + 6) bytes spare
    rw [diverges] at walk
    cases walk with
    | exhaust few => omega

theorem newPacket_metadata_endless : ¬ ∃ fuel, newPacket fuel .metadata [] [] ≠ .diverge := by
  rintro ⟨fuel, ends⟩
  exact ends (newPacket_metadata fuel [] [])

end Lemming.Protocol
