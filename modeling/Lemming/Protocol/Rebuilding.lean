import Lemming.Protocol.Memory
import Lemming.Protocol.Readers

set_option autoImplicit false

namespace Lemming.Protocol

open Shared Lemming.Packet

section Identities

variable {descs above below : List (Desc Slice)}

theorem payloadID_ok (descs : List (Desc Slice)) : ∃ id, Desc.payloadID descs = .ok id := by
  rcases descs with _ | ⟨⟨group, handler, dirty⟩, below⟩
  · exact ⟨_, rfl⟩
  · cases handler <;> exact ⟨_, rfl⟩

theorem envelopeID_ok (sound : ∀ desc ∈ descs, desc.Sound) : ∃ id, Desc.envelopeID descs = .ok id := by
  rcases descs with _ | ⟨desc, above⟩
  · exact ⟨_, rfl⟩
  · have shaped := (sound desc List.mem_cons_self).1
    rw [Desc.envelopeID]
    cases isHandler : desc.handler with
    | ip linked headers =>
      rw [isHandler] at shaped
      have last := List.getLast?_eq_some_getLast shaped.2.1
      simp only [Handler.id, if_true, last]
      exact ⟨_, rfl⟩
    | _ => exact ⟨_, rfl⟩

variable {num : Int32}

theorem find_ip4 {off : Nat} (isAddress : num = srcField ∧ off = 12 ∨ num = dstField ∧ off = 16)
    (heap : Heap UInt8) (header : Slice) (payload : Nat) (inst : UInt8) :
    IPHeader.find heap { num, inst } (.ip4 header payload) =
      if header.len < off + 4 then .error "ip4: Find failed, field does not exist"
      else .ok ((header.sub off 4).get heap) := by
  have found : IPHeader.field heap IPHeader.ip4Places header { num, inst } =
      .ok (FieldRef.within header off 4) := by
    rcases isAddress with ⟨rfl, rfl⟩ | ⟨rfl, rfl⟩ <;> rfl
  rw [IPHeader.find, found, FieldRef.within]
  split <;> rfl

theorem find_ip6 {off : Nat} (isAddress : num = srcField ∧ off = 8 ∨ num = dstField ∧ off = 24)
    (heap : Heap UInt8) (header : Slice) (payload : Nat) (inst : UInt8) :
    IPHeader.find heap { num, inst } (.ip6 header payload) =
      if header.len < off + 16 then .error "ip6: find failed, field does not exist"
      else .ok ((header.sub off 16).get heap) := by
  have found : IPHeader.field heap IPHeader.ip6Places header { num, inst } =
      .ok (FieldRef.within header off 16) := by
    rcases isAddress with ⟨rfl, rfl⟩ | ⟨rfl, rfl⟩ <;> rfl
  have plain : num ≠ qosField ∧ num ≠ flowField := by
    rcases isAddress with ⟨rfl, -⟩ | ⟨rfl, -⟩ <;> decide
  rw [IPHeader.find, found, FieldRef.within]
  split
  · rfl
  · simp only [Outcome.ok_bind, Bool.false_eq_true, if_false, if_neg plain.1, if_neg plain.2]
    rfl

theorem find_returns (isAddress : num = srcField ∨ num = dstField) (heap : Heap UInt8)
    (inst : UInt8) (ip : IPHeader Slice) :
    (ip.find heap { num, inst }).Allows fun _ => True := by
  cases ip with
  | ip4 header payload =>
    obtain ⟨off, isOff⟩ : ∃ off, num = srcField ∧ off = 12 ∨ num = dstField ∧ off = 16 := by
      rcases isAddress with rfl | rfl <;> simp
    rw [find_ip4 isOff]
    split
    · exact Or.inr ⟨_, rfl⟩
    · exact Or.inl (.pure trivial)
  | ip6 header payload =>
    obtain ⟨off, isOff⟩ : ∃ off, num = srcField ∧ off = 8 ∨ num = dstField ∧ off = 24 := by
      rcases isAddress with rfl | rfl <;> simp
    rw [find_ip6 isOff]
    split
    · exact Or.inr ⟨_, rfl⟩
    · exact Or.inl (.pure trivial)
  | gre header key seq payload =>
    have noOption : num ≠ keyField ∧ num ≠ sequenceField := by
      rcases isAddress with rfl | rfl <;> decide
    simp only [IPHeader.find, noOption.1, noOption.2, false_and, and_false, if_false]
    exact Or.inr ⟨_, rfl⟩

theorem l3Field_returns (isAddress : num = srcField ∨ num = dstField) (heap : Heap UInt8)
    (sound : ∀ desc ∈ above ++ below, desc.Sound) :
    (Desc.l3Field heap above below num).Allows fun _ => True := by
  unfold Desc.l3Field
  cases found : (above ++ below).find? fun desc => decide (desc.group = .l3) with
  | none => exact Or.inr ⟨_, rfl⟩
  | some desc =>
    have isGroup : desc.group = .l3 := by simpa using List.find?_some found
    have isIP := (sound desc (List.mem_of_find?_eq_some found)).2
    rw [isGroup] at isIP
    dsimp only
    cases isHandler : desc.handler with
    | ip linked headers =>
      rw [Handler.field]
      cases (IPHeader.lookup headers { num, inst := lastField }).bind (headers[·]?) with
      | none => exact Or.inr ⟨_, rfl⟩
      | some header => exact find_returns isAddress heap lastField header
    | _ =>
      rw [isHandler] at isIP
      cases isIP

end Identities

section Payloads

def protoOf (id : HeaderId) : Nat := (headerProto.lookup id).getD 255

def typeOf (id : HeaderId) : Nat := (headerNext.lookup id).getD 0xFFFF

-- The bytes of an IP or GRE header once its derived fields say that `length` bytes come after it, the
-- first of them in a header of kind `next`.
def derive (kind next : HeaderId) (length : Nat) (header : Bytes) : Bytes :=
  match kind with
  | .ip4 =>
    let header := overwrite header 9 (octetsOf 1 (protoOf next))
    let header := overwrite header 2 (octetsOf 2 (length + header.length))
    let header := overwrite header 10 (octetsOf 2 0)
    overwrite header 10 (octetsOf 2 (Csum16.write 0 header).toNat)
  | .ip6 =>
    overwrite (overwrite header 6 (octetsOf 1 (protoOf next))) 4 (octetsOf 2 length)
  | _ => overwrite header 2 (octetsOf 2 (typeOf next))

namespace IPHeader

def main : IPHeader Slice → Slice
  | .ip4 header _ => header
  | .ip6 header _ => header
  | .gre header _ _ _ => header

variable {heap : Heap UInt8} {ip : IPHeader Slice}

theorem Inside.main (inside : ip.Inside heap) : ip.main.Inside heap :=
  inside _ (by cases ip <;> simp [IPHeader.main, slices])

theorem reach_covers_main (ip : IPHeader Slice) : ∃ r ∈ ip.reach, r.Covers ip.main := by
  cases ip with
  | ip4 header payload | ip6 header payload => exact ⟨_, List.mem_cons_self, .refl _⟩
  | gre header key seq payload =>
    refine ⟨_, List.mem_cons_self, rfl, Nat.le_refl _, ?_⟩
    simp only [IPHeader.main]
    omega

theorem setPayload_yields (inside : ip.Inside heap) (shaped : ip.Shaped Slice.len)
    (next : HeaderId) (length : Nat) :
    (ip.setPayload heap next length).Yields fun (heap', ip') =>
      heap.Only [ip.main] heap' ∧
        ip.main.get heap' = derive ip.id next length (ip.main.get heap) ∧
        ip'.form = ip.form ∧ ip'.payload = (ip.id, ip.size + length) := by
  have live := inside.main
  have size := Slice.get_length live
  cases ip with
  | ip4 header payload =>
    simp only [IPHeader.main] at live size ⊢
    obtain ⟨large, -⟩ := shaped
    refine (setValue_yields live (by omega) (by decide) _).bind fun heap₁ ⟨only₁, is₁⟩ => ?_
    have live₁ := live.grown only₁.1
    refine (setValue_yields live₁ (by omega) (by decide) _).bind fun heap₂ ⟨only₂, is₂⟩ => ?_
    have live₂ := live₁.grown only₂.1
    refine (setValue_yields live₂ (by omega) (by decide) _).bind fun heap₃ ⟨only₃, is₃⟩ => ?_
    have live₃ := live₂.grown only₃.1
    refine (setValue_yields live₃ (by omega) (by decide) _).bind fun heap₄ ⟨only₄, is₄⟩ => ?_
    refine .pure ⟨((only₁.trans only₂).trans only₃).trans only₄, ?_, rfl, rfl⟩
    have size₁ := Slice.get_length live₁
    rw [is₄, is₃, is₂, is₁, ← size₁, is₁]
    rfl
  | ip6 header payload =>
    simp only [IPHeader.main] at live size ⊢
    have large : header.len = 40 := shaped
    refine (setValue_yields live (by omega) (by decide) _).bind fun heap₁ ⟨only₁, is₁⟩ => ?_
    have live₁ := live.grown only₁.1
    refine (setValue_yields live₁ (by omega) (by decide) _).bind fun heap₂ ⟨only₂, is₂⟩ => ?_
    refine .pure ⟨only₁.trans only₂, ?_, rfl, rfl⟩
    rw [is₂, is₁]
    rfl
  | gre header key seq payload =>
    simp only [IPHeader.main] at live size ⊢
    have large : header.len = 4 := shaped.1
    refine (setValue_yields live (by omega) (by decide) _).bind fun heap₁ ⟨only₁, is₁⟩ => ?_
    exact .pure ⟨only₁, is₁, rfl, rfl⟩

def outermost (next : HeaderId) : List (IPHeader Slice) → HeaderId
  | [] => next
  | ip :: _ => ip.id

theorem rebuildAll_yields {headers : List (IPHeader Slice)} (inside : InsideAll heap headers)
    (shaped : ∀ ip ∈ headers, ip.Shaped Slice.len) (next : HeaderId) (length : Nat) :
    (rebuildAll heap next length headers).Yields fun (heap', headers', outer) =>
      heap.Only (headers.flatMap reach) heap' ∧ headers'.map form = headers.map form ∧
        outer = (outermost next headers, (headers.map size).sum + length) := by
  induction headers with
  | nil => exact .pure ⟨.refl _ _, rfl, by simp [outermost]⟩
  | cons ip inner ih =>
    rw [rebuildAll]
    refine (ih (fun other mem => inside other (List.mem_cons_of_mem _ mem))
      fun other mem => shaped other (List.mem_cons_of_mem _ mem)).bind ?_
    rintro ⟨heap₁, inner', outer⟩ ⟨only₁, same, rfl⟩
    have inIP := (inside ip List.mem_cons_self).grown only₁.1
    refine (setPayload_yields inIP (shaped ip List.mem_cons_self) _ _).bind ?_
    rintro ⟨heap₂, ip'⟩ ⟨only₂, -, sameIP, isPayload⟩
    refine .pure ⟨?_, ?_, ?_⟩
    · rw [List.flatMap_cons]
      refine (only₁.mono (List.subset_append_right _ _)).trans (only₂.covered ?_)
      intro s mem
      obtain ⟨r, isReach, covers⟩ := reach_covers_main ip
      rw [List.mem_singleton.mp mem]
      exact ⟨r, List.mem_append_left _ isReach, covers⟩
    · rw [List.map_cons, List.map_cons, sameIP, same]
    · rw [isPayload, outermost, List.map_cons, List.sum_cons, Nat.add_assoc]

end IPHeader

end Payloads

section Handlers

open Handler

variable {heap : Heap UInt8} {above below : List (Desc Slice)} {header : Slice}

theorem rebuildEthernet_yields {eth : Ethernet Slice} (inside : eth.header.Inside heap)
    (shaped : (Handler.ethernet eth).Shaped Slice.len) (below : List (Desc Slice)) :
    (rebuildEthernet heap below eth).Yields fun heap' => heap.Only [eth.header] heap' := by
  obtain ⟨type, isType⟩ := shaped
  have fits := (newEthernet_next type).1
  rw [isType] at fits
  obtain ⟨id, isID⟩ := payloadID_ok below
  rw [rebuildEthernet, isID, Outcome.ok_bind]
  cases headerNext.lookup id with
  | none => exact .pure (.refl _ _)
  | some next =>
    exact (setValue_yields inside (Nat.le_of_eq fits) (by decide) _).imp fun _ written => written.1

theorem rebuildUDP_yields (inside : header.Inside heap) (inBelow : Desc.Inside heap below)
    (large : 8 ≤ header.len) (sound : ∀ desc ∈ above ++ below, desc.Sound) (dirty : Bool) :
    (rebuildUDP heap above below dirty header).Yields fun heap' =>
      heap.Only (header :: Desc.reach below) heap' := by
  rw [rebuildUDP]
  split
  · exact .pure (.refl _ _)
  · have only := (Desc.payloadLength_only inBelow).1.mono (List.subset_cons_self header _)
    have here : [header] ⊆ header :: Desc.reach below := by simp
    have live := inside.grown only.1
    obtain ⟨envelope, isEnvelope⟩ : ∃ id, Desc.envelopeID above = .ok id :=
      envelopeID_ok fun desc mem => sound desc (List.mem_append_left _ mem)
    refine (setValue_yields live (by omega) (by decide) _).bind fun heap₁ ⟨only₁, _⟩ => ?_
    have live₁ := live.grown only₁.1
    refine (setValue_yields live₁ (by omega) (by decide) _).bind fun heap₂ ⟨only₂, _⟩ => ?_
    have live₂ := live₁.grown only₂.1
    have written := (only.trans (only₁.mono here)).trans (only₂.mono here)
    rw [isEnvelope, Outcome.ok_bind]
    split
    · exact .pure written
    · rcases l3Field_returns (Or.inl rfl) heap₂ sound with ⟨src, isSrc, -⟩ | ⟨message, isSrc⟩
      · rcases l3Field_returns (Or.inr rfl) heap₂ sound with ⟨dst, isDst, -⟩ | ⟨message, isDst⟩
        · simp only [isSrc, isDst, Outcome.ok_bind]
          refine (setValue_yields live₂ (by omega) (by decide) _).imp fun heap₃ only₃ => ?_
          exact written.trans (only₃.1.mono here)
        · simp only [isSrc, isDst, Outcome.ok_bind]
          exact .pure written
      · simp only [isSrc]
        exact .pure written

theorem rebuildICMP4_yields (inside : header.Inside heap) (large : 8 ≤ header.len) (dirty : Bool) :
    (rebuildICMP4 heap dirty header).Yields fun heap' => heap.Only [header] heap' := by
  rw [rebuildICMP4]
  split
  · exact .pure (.refl _ _)
  · refine (setValue_yields inside (by omega) (by decide) _).bind fun heap₁ ⟨only₁, _⟩ => ?_
    refine (setValue_yields (inside.grown only₁.1) (by omega) (by decide) _).imp fun heap₂ only₂ => ?_
    exact only₁.trans only₂.1

theorem rebuildICMP6_yields (inside : header.Inside heap) (large : 8 ≤ header.len)
    (sound : ∀ desc ∈ above ++ below, desc.Sound) (dirty : Bool) :
    (rebuildICMP6 heap above below dirty header).Yields fun heap' => heap.Only [header] heap' := by
  rw [rebuildICMP6]
  split
  · exact .pure (.refl _ _)
  · refine (setValue_yields inside (by omega) (by decide) _).bind fun heap₁ ⟨only₁, _⟩ => ?_
    rcases l3Field_returns (Or.inl rfl) heap₁ sound with ⟨src, isSrc, -⟩ | ⟨message, isSrc⟩
    · rcases l3Field_returns (Or.inr rfl) heap₁ sound with ⟨dst, isDst, -⟩ | ⟨message, isDst⟩
      · simp only [isSrc, isDst, Outcome.ok_bind]
        refine (setValue_yields (inside.grown only₁.1) (by omega) (by decide) _).imp
          fun heap₂ only₂ => ?_
        exact only₁.trans only₂.1
      · simp only [isSrc, isDst, Outcome.ok_bind]
        exact .pure only₁
    · simp only [isSrc]
      exact .pure only₁

def Rebuilds (payload : Heap UInt8 → List (Desc Slice) → List (Desc Slice) →
    Outcome (Heap UInt8 × Bytes × List (Desc Slice))) (above below : List (Desc Slice)) : Prop :=
  ∀ heap, Desc.Inside heap below → (∀ desc ∈ above ++ below, desc.Sound) →
    (payload heap above below).Yields fun (heap', _, below') =>
      heap.Only (Desc.reach below) heap' ∧ below'.map Desc.form = below.map Desc.form

variable {payload : Heap UInt8 → List (Desc Slice) → List (Desc Slice) →
    Outcome (Heap UInt8 × Bytes × List (Desc Slice))} {self : Desc Slice}

theorem rebuildTCP_yields (rebuilds : Rebuilds payload (self :: above) below) (inside : header.Inside heap)
    (inBelow : Desc.Inside heap below) (large : 20 ≤ header.len)
    (sound : ∀ desc ∈ self :: above ++ below, desc.Sound) (dirty : Bool) :
    (rebuildTCP heap payload above below dirty self header).Yields fun (heap', below') =>
      heap.Only (header :: Desc.reach below) heap' ∧ below'.map Desc.form = below.map Desc.form := by
  have soundOthers : ∀ desc ∈ above ++ below, desc.Sound := fun desc mem =>
    sound desc (List.mem_cons_of_mem _ mem)
  obtain ⟨envelope, isEnvelope⟩ : ∃ id, Desc.envelopeID above = .ok id :=
    envelopeID_ok fun desc mem => soundOthers desc (List.mem_append_left _ mem)
  have here : [header] ⊆ header :: Desc.reach below := by simp
  rw [rebuildTCP, isEnvelope, Outcome.ok_bind]
  split
  · exact .pure ⟨.refl _ _, rfl⟩
  split
  · exact .pure ⟨.refl _ _, rfl⟩
  refine (setValue_yields inside (by omega) (by decide) _).bind fun heap₁ ⟨only₁, _⟩ => ?_
  have live₁ := inside.grown only₁.1
  have written := only₁.mono here
  rcases l3Field_returns (Or.inl rfl) heap₁ soundOthers with ⟨src, isSrc, -⟩ | ⟨message, isSrc⟩
  · rcases l3Field_returns (Or.inr rfl) heap₁ soundOthers with ⟨dst, isDst, -⟩ | ⟨message, isDst⟩
    · simp only [isSrc, isDst, Outcome.ok_bind]
      refine (rebuilds heap₁ (inBelow.grown only₁.1) sound).bind ?_
      rintro ⟨heap₂, bytes, below'⟩ ⟨only₂, same⟩
      refine (setValue_yields (live₁.grown only₂.1) (by omega) (by decide) _).bind
        fun heap₃ ⟨only₃, _⟩ => ?_
      refine .pure ⟨?_, same⟩
      exact (written.trans (only₂.mono (List.subset_cons_self _ _))).trans (only₃.mono here)
    · simp only [isSrc, isDst, Outcome.ok_bind]
      exact .pure ⟨written, rfl⟩
  · simp only [isSrc]
    exact .pure ⟨written, rfl⟩

theorem rebuild_yields (rebuilds : Rebuilds payload (self :: above) below)
    (inside : Desc.Inside heap (self :: below))
    (sound : ∀ desc ∈ self :: above ++ below, desc.Sound) :
    (Handler.rebuild heap payload above below self).Yields fun (heap', handler', below') =>
      heap.Only (self.handler.reach ++ Desc.reach below) heap' ∧
        handler'.form = self.handler.form ∧ below'.map Desc.form = below.map Desc.form ∧
        (∀ md, handler' = .metadata md → md.length = Desc.size below) := by
  have inSelf := inside self List.mem_cons_self
  have inBelow : Desc.Inside heap below := fun desc mem => inside desc (List.mem_cons_of_mem _ mem)
  have soundOthers : ∀ desc ∈ above ++ below, desc.Sound := fun desc mem =>
    sound desc (List.mem_cons_of_mem _ mem)
  have shaped := (sound self List.mem_cons_self).1
  rw [Handler.rebuild]
  obtain ⟨group, handler, dirty⟩ := self
  cases handler with
  | metadata md =>
    obtain ⟨only, total⟩ := Desc.payloadLength_only inBelow
    refine .pure ⟨only.mono (List.subset_append_right _ _), rfl, rfl, ?_⟩
    rintro md' ⟨⟩
    exact total
  | ethernet eth =>
    refine (rebuildEthernet_yields (inSelf _ List.mem_cons_self) shaped below).bind
      fun heap₁ only₁ => ?_
    exact .pure ⟨only₁.mono (List.subset_append_left _ _), rfl, rfl, by rintro _ ⟨⟩⟩
  | ip linked headers =>
    obtain ⟨isLinked, -, shapedAll⟩ := shaped
    obtain ⟨only, total⟩ := Desc.payloadLength_only inBelow
    obtain ⟨id, isID⟩ := payloadID_ok below
    simp only [isLinked, Bool.not_true, Bool.false_eq_true, if_false, isID, Outcome.ok_bind]
    refine (IPHeader.rebuildAll_yields (inSelf.grown only.1).headers shapedAll _ _).bind ?_
    rintro ⟨heap₁, headers', outer⟩ ⟨only₁, same, -⟩
    refine .pure ⟨?_, ?_, rfl, by rintro _ ⟨⟩⟩
    · exact (only.mono (List.subset_append_right _ _)).trans
        (only₁.mono (List.subset_append_left _ _))
    · simp only [Handler.form, same]
  | tcp header =>
    refine (rebuildTCP_yields rebuilds (inSelf _ List.mem_cons_self) inBelow shaped sound _).bind ?_
    rintro ⟨heap₁, below'⟩ ⟨only₁, same⟩
    exact .pure ⟨only₁, rfl, same, by rintro _ ⟨⟩⟩
  | udp header =>
    refine (rebuildUDP_yields (inSelf _ List.mem_cons_self) inBelow shaped soundOthers _).bind
      fun heap₁ only₁ => ?_
    exact .pure ⟨only₁, rfl, rfl, by rintro _ ⟨⟩⟩
  | icmp4 header =>
    refine (rebuildICMP4_yields (inSelf _ List.mem_cons_self) shaped _).bind fun heap₁ only₁ => ?_
    exact .pure ⟨only₁.mono (List.subset_append_left _ _), rfl, rfl, by rintro _ ⟨⟩⟩
  | icmp6 type options header =>
    refine (rebuildICMP6_yields (inSelf _ List.mem_cons_self) shaped soundOthers _).bind
      fun heap₁ only₁ => ?_
    exact .pure ⟨only₁.mono (List.subset_append_left _ _), rfl, rfl, by rintro _ ⟨⟩⟩
  | arp header | opaqueData header => exact .pure ⟨.refl _ _, rfl, rfl, by rintro _ ⟨⟩⟩

end Handlers

section Loops

namespace Desc

theorem Inside.rebuilt {heap heap' : Heap UInt8} {below below' : List (Desc Slice)}
    (inside : Inside heap below) (grown : heap.Grown heap')
    (same : below'.map form = below.map form) : Inside heap' below' :=
  inside_of_form same (inside.grown grown)

-- What the loop needs in order to go through the descriptors below.
structure Queued (n : Nat) (heap : Heap UInt8) (above below : List (Desc Slice)) : Prop where
  few : below.length ≤ n
  inside : Inside heap below
  sound : ∀ desc ∈ above ++ below, desc.Sound

section Steps

variable {n : Nat} {heap heap₁ : Heap UInt8} {above below below' : List (Desc Slice)} {desc : Desc Slice}
  {handler : Handler Slice}

theorem Queued.next (queued : Queued (n + 1) heap above (desc :: below)) (grown : heap.Grown heap₁)
    (sameHandler : handler.form = desc.handler.form) (same : below'.map form = below.map form) :
    Queued n (handler.header heap₁).1 ({ desc with handler } :: above) below' where
  few := by
    have few := queued.few
    rw [← List.length_map (f := form), same, List.length_map]
    rw [List.length_cons] at few
    omega
  inside := by
    have inHandler := (queued.inside desc List.mem_cons_self).rebuilt grown sameHandler
    have inBelow : Inside heap₁ below' := Inside.rebuilt
      (fun other mem => queued.inside other (List.mem_cons_of_mem _ mem)) grown same
    exact inBelow.grown (Handler.header_only inHandler).1
  sound := by
    have before : ∀ other ∈ desc :: above ++ below, other.Sound :=
      fun other mem => queued.sound other (List.perm_middle.mem_iff.mpr mem)
    refine sound_of_form ?_ before
    simp only [List.cons_append, List.map_cons, List.map_append, same, form, sameHandler]

-- What the loop does as the payload of a handler above.
theorem rebuilds_of_loop (few : below.length ≤ n)
    (loop : ∀ heap, Queued n heap above below →
      (rebuildLoop n heap above below).Yields fun (heap', headers, below') =>
        heap.Only (reach below) heap' ∧ below'.map form = below.map form ∧
          (joinPayload headers).length = size below) :
    Rebuilds (fun heap above below => do
      let (heap, headers, descs) ← rebuildLoop n heap above below
      return (heap, joinPayload headers, descs.map clean)) above below := by
  intro heap inside sound
  refine (loop heap ⟨few, inside, sound⟩).bind ?_
  rintro ⟨heap', headers, below'⟩ ⟨only, same, -⟩
  refine .pure ⟨only, ?_⟩
  rw [← same, List.map_map]
  rfl

end Steps

theorem rebuildLoop_yields (n : Nat) : ∀ {heap : Heap UInt8} {above below : List (Desc Slice)},
    Queued n heap above below →
      (rebuildLoop n heap above below).Yields fun (heap', headers, below') =>
        heap.Only (reach below) heap' ∧ below'.map form = below.map form ∧
          (joinPayload headers).length = size below := by
  induction n with
  | zero =>
    intro heap above below queued
    obtain rfl := List.length_eq_zero_iff.mp (Nat.le_zero.mp queued.few)
    exact .pure ⟨.refl _ _, rfl, rfl⟩
  | succ n ih =>
    intro heap above below queued
    cases below with
    | nil => exact .pure ⟨.refl _ _, rfl, rfl⟩
    | cons desc below =>
      have rebuilds := rebuilds_of_loop (Nat.le_of_succ_le_succ queued.few) fun _ => @ih _ (desc :: above) _
      rw [rebuildLoop]
      refine (rebuild_yields rebuilds queued.inside fun other mem =>
        queued.sound other (List.perm_middle.mem_iff.mpr mem)).bind ?_
      rintro ⟨heap₁, handler, below'⟩ ⟨only₁, sameHandler, same, -⟩
      have inHandler := (queued.inside desc List.mem_cons_self).rebuilt only₁.1 sameHandler
      have only₂ := Handler.header_only inHandler
      have length := Handler.header_length inHandler
      rw [← Handler.form_reach, sameHandler, Handler.form_reach] at only₂
      rw [← Handler.form_size, sameHandler, Handler.form_size] at length
      refine (ih (queued.next only₁.1 sameHandler same)).bind ?_
      rintro ⟨heap₃, headers, below''⟩ ⟨only₃, same', total⟩
      refine .pure ⟨?_, ?_, ?_⟩
      · rw [reach_of_form same] at only₃
        rw [reach, List.flatMap_cons]
        exact (only₁.trans (only₂.mono (List.subset_append_left _ _))).trans
          (only₃.mono (List.subset_append_right _ _))
      · rw [List.map_cons, List.map_cons, same', same]
        simp only [form, sameHandler]
      · rw [size_of_form same] at total
        rw [size, List.map_cons, List.sum_cons, ← length, ← size, ← total, ← List.length_append]
        rfl

theorem rebuild_below {payload : Heap UInt8 → List (Desc Slice) → List (Desc Slice) →
      Outcome (Heap UInt8 × Bytes × List (Desc Slice))} {self : Desc Slice} {heap heap' : Heap UInt8}
    {above below below' : List (Desc Slice)} {handler : Handler Slice}
    (noTCP : ∀ header, self.handler ≠ .tcp header)
    (isOk : Handler.rebuild heap payload above below self = .ok (heap', handler, below')) :
    below' = below := by
  rw [Handler.rebuild] at isOk
  obtain ⟨group, handler, dirty⟩ := self
  cases handler with
  | tcp header => exact absurd rfl (noTCP header)
  | metadata md | arp header | opaqueData header =>
    cases isOk
    rfl
  | ip linked headers =>
    cases linked with
    | false =>
        cases isOk
    | true =>
      simp only [Bool.not_true, Bool.false_eq_true, if_false] at isOk
      obtain ⟨_, -, isOk⟩ := Outcome.bind_eq_ok.mp isOk
      obtain ⟨_, -, isOk⟩ := Outcome.bind_eq_ok.mp isOk
      cases isOk
      rfl
  | ethernet eth | udp header | icmp4 header | icmp6 type options header =>
    obtain ⟨_, -, isOk⟩ := Outcome.bind_eq_ok.mp isOk
    cases isOk
    rfl

theorem Queued.past {desc : Desc Slice} {n : Nat} {heap : Heap UInt8} {above below : List (Desc Slice)}
    (queued : Queued n heap above (desc :: below)) (noTCP : ∀ header, desc.handler ≠ .tcp header) :
    ∃ m heap₁ handler, Queued m (handler.header heap₁).1 ({ desc with handler } :: above) below ∧
      heap.Grown heap₁ ∧ handler.form = desc.handler.form ∧
      rebuildLoop n heap above (desc :: below) = do
        let (heap, headers, below) ← rebuildLoop m (handler.header heap₁).1
          ({ desc with handler } :: above) below
        return (heap, (handler.header heap₁).2 :: headers, { desc with handler } :: below) := by
  obtain ⟨m, rfl⟩ := Nat.exists_eq_succ_of_ne_zero (Nat.ne_zero_of_lt queued.few)
  have rebuilds := rebuilds_of_loop (Nat.le_of_succ_le_succ queued.few) fun _ =>
    @rebuildLoop_yields _ _ (desc :: above) _
  obtain ⟨⟨heap₁, handler, below₁⟩, isOk, only, sameHandler, same, -⟩ :=
    rebuild_yields rebuilds queued.inside fun other mem =>
      queued.sound other (List.perm_middle.mem_iff.mpr mem)
  obtain rfl := rebuild_below noTCP isOk
  exact ⟨m, heap₁, handler, queued.next only.1 sameHandler same, only.1, sameHandler,
    by rw [rebuildLoop, isOk]; rfl⟩

theorem rebuildLoop_past {P : List Bytes → Prop} {rest : List (Desc Slice)}
    (goes : ∀ {n : Nat} {heap : Heap UInt8} {above : List (Desc Slice)}, Queued n heap above rest →
      (rebuildLoop n heap above rest).Yields fun s => P s.2.1) :
    ∀ {front : List (Desc Slice)} {n : Nat} {heap : Heap UInt8} {above : List (Desc Slice)},
      (∀ desc ∈ front, ∀ header, desc.handler ≠ .tcp header) → Queued n heap above (front ++ rest) →
      (rebuildLoop n heap above (front ++ rest)).Yields fun s =>
        ∃ before out, joinPayload s.2.1 = before ++ joinPayload out ∧ P out
  | [], _, _, _, _, queued => (goes queued).imp fun _ is => ⟨[], _, rfl, is⟩
  | desc :: front, n, heap, above, noTCP, queued => by
    obtain ⟨first, others⟩ := List.forall_mem_cons.mp noTCP
    rw [List.cons_append] at queued ⊢
    obtain ⟨m, heap₁, handler, queued', -, -, isLoop⟩ := queued.past first
    rw [isLoop]
    refine (rebuildLoop_past goes others queued').bind ?_
    rintro ⟨heap₂, all, below₂⟩ ⟨before, out, isOut, is⟩
    refine .pure ⟨(handler.header heap₁).2 ++ before, out, ?_, is⟩
    rw [List.append_assoc, ← isOut]
    rfl

end Desc

end Loops

end Lemming.Protocol
