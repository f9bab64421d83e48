import Lemming.Protocol.Operating

set_option autoImplicit false

namespace Lemming.Protocol

open Shared Lemming.Packet

section Ethernet

namespace Ethernet

variable {heap : Heap UInt8} {eth : Ethernet Slice}

def Overruns (heap : Heap UInt8) (id : HeaderId) (eth : Ethernet Slice) : Prop :=
  id = .ethernetVlan ∧ eth.id = .ethernetVlan ∧ eth.ethertype heap = .ok 0x9100 ∧
    (heap.array eth.header.array).length < eth.header.off + 22

theorem ethertype_ok (inside : eth.header.Inside heap)
    (shaped : (Handler.ethernet eth).Shaped Slice.len) :
    eth.ethertype heap = .ok (octetsValue (slice (eth.header.get heap) eth.next 2)) := by
  obtain ⟨type, isType⟩ := shaped
  have fits := (newEthernet_next type).1
  rw [isType] at fits
  exact value_field (Nat.le_of_eq (fits.trans (Slice.get_length inside).symm)) (by decide)

theorem kind_cases (shaped : (Handler.ethernet eth).Shaped Slice.len) :
    eth.id = .ethernetVlan ∧ eth.header.len = 18 ∨ eth.id = .ethernet1Q ∧ eth.header.len = 22 ∨
      eth.id = .ethernet ∧ eth.header.len = 14 := by
  obtain ⟨type, isType⟩ := shaped
  have isID : (newEthernet type).1.id = eth.id := congrArg (fun made => made.1.id) isType
  rw [← isID, ← show (newEthernet type).2 = eth.header.len from congrArg Prod.snd isType, newEthernet]
  split
  · exact Or.inl ⟨rfl, rfl⟩
  split
  · exact Or.inr (Or.inl ⟨rfl, rfl⟩)
  · exact Or.inr (Or.inr ⟨rfl, rfl⟩)

theorem newEthernet_size (type : Nat) :
    (newEthernet type).2 ≤ 18 ∨ type = 0x9100 ∧ (newEthernet type).2 = 22 := by
  unfold newEthernet
  split
  · exact Or.inl (by decide)
  split
  · exact Or.inr ⟨‹_›, rfl⟩
  · exact Or.inl (by decide)

structure Remains (heap : Heap UInt8) (eth : Ethernet Slice) (heap' : Heap UInt8)
    (eth' : Ethernet Slice) : Prop where
  only : heap.Only [eth'.header] heap'
  inside : eth'.header.Inside heap'
  shaped : eth'.header.len ≠ 0 → (Handler.ethernet eth').Shaped Slice.len
  start : eth'.header.len ≠ 0 →
    eth'.header.array = eth.header.array ∧ eth'.header.off = eth.header.off

theorem retag_yields (inside : eth.header.Inside heap) {next : Nat}
    (room : eth.header.off + (newEthernet next).2 ≤ (heap.array eth.header.array).length) :
    (eth.retag heap next).Yields fun (heap', eth') => Remains heap eth heap' eth' := by
  have cut : eth.header.reslice heap (newEthernet next).2 =
      some { eth.header with len := (newEthernet next).2 } := if_pos room
  have inCut : Slice.Inside heap { eth.header with len := (newEthernet next).2 } := ⟨inside.1, room⟩
  have fits := (newEthernet_next next).1
  simp only [retag, cut]
  refine (setValue_yields inCut (Nat.le_of_eq fits) (by decide) _).bind fun heap' ⟨only, _⟩ => ?_
  exact .pure ⟨only, inCut.grown only.1, fun _ => ⟨next, rfl⟩, fun _ => ⟨rfl, rfl⟩⟩

theorem retag_room (inside : eth.header.Inside heap)
    (shaped : (Handler.ethernet eth).Shaped Slice.len) {id : HeaderId} {next : Nat}
    (isTag : id = .ethernetVlan ∨ id = .ethernet1Q) (same : eth.id = id)
    (isNext : eth.ethertype heap = .ok next) (fits : ¬ eth.Overruns heap id) :
    eth.header.off + (newEthernet next).2 ≤ (heap.array eth.header.array).length := by
  have room := inside.2
  have sizes := newEthernet_size next
  have kinds := kind_cases shaped
  rw [same] at kinds
  rcases isTag with rfl | rfl
  · have size : eth.header.len = 18 := by simpa using kinds
    rcases sizes with small | ⟨rfl, large⟩
    · omega
    · rw [large]
      exact Nat.le_of_not_lt fun short => fits ⟨rfl, same, isNext, short⟩
  · have size : eth.header.len = 22 := by simpa using kinds
    omega

theorem remove_spec (inside : eth.header.Inside heap)
    (shaped : (Handler.ethernet eth).Shaped Slice.len) (id : HeaderId) :
    (eth.Overruns heap id → eth.remove heap id = .panic) ∧
      (¬ eth.Overruns heap id →
        (eth.remove heap id).Allows fun (heap', eth') => Remains heap eth heap' eth') := by
  have isNext := ethertype_ok inside shaped
  constructor
  · rintro ⟨rfl, isVlan, is9100, short⟩
    have none : eth.header.reslice heap (newEthernet 0x9100).2 = none := by
      have full : ¬ eth.header.off + 22 ≤ (heap.array eth.header.array).length := by omega
      exact if_neg full
    simp only [remove, isVlan, ne_eq, not_true_eq_false, if_false, is9100, Outcome.ok_bind, retag,
      none]
  · intro fits
    cases id with
    | ethernetVlan | ethernet1Q =>
      rw [remove]
      split
      · exact .error _
      · next same =>
        rw [isNext, Outcome.ok_bind]
        refine Or.inl (retag_yields inside ?_)
        exact retag_room inside shaped (by simp) (not_not.mp same) isNext fits
    | ethernet =>
      rw [remove]
      split
      · exact .error _
      · refine .pure ⟨.refl _ _, ?_, fun nonempty => absurd rfl nonempty,
          fun nonempty => absurd rfl nonempty⟩
        exact ⟨(Nat.zero_le _).trans_lt inside.1, Nat.zero_le _⟩
    | _ => exact .error _

end Ethernet

def New (heap : Heap UInt8) (slices : List Slice) (heap' : Heap UInt8) : Prop :=
  heap.Only [] heap' ∧ ∀ s ∈ slices, s.Inside heap' ∧ heap.length ≤ s.array

variable {heap heap' heap'' : Heap UInt8} {s : Slice}

theorem New.alloc (heap : Heap UInt8) (cells : Bytes) :
    New heap [(Slice.alloc heap cells).2] (Slice.alloc heap cells).1 := by
  refine ⟨.alloc _ _ _, ?_⟩
  intro s mem
  rw [List.mem_singleton.mp mem]
  exact ⟨Slice.alloc_inside heap cells, Nat.le_refl _⟩

theorem New.write {slices : List Slice} (new : New heap slices heap') (mem : s ∈ slices)
    (only : heap'.Only [s] heap'') : New heap slices heap'' := by
  refine ⟨new.1.trans_new only ?_, fun t isSlice => ?_⟩
  · intro t isSlice
    rw [List.mem_singleton.mp isSlice]
    exact (new.2 s mem).2
  · exact ⟨(new.2 t isSlice).1.grown only.1, (new.2 t isSlice).2⟩

theorem update_set_yields {header : Slice} {ref : FieldRef} (inside : header.Inside heap)
    (within : ref.Within header) (arg : Bytes) :
    (ref.update heap header (Field.set arg)).Yields fun heap' => heap.Only [header] heap' := by
  have whenever := update_whenever inside within (set_resizes arg)
  cases ref with
  | part off n | copy bytes => exact ⟨_, rfl, whenever _ rfl⟩

theorem New.setValue {header : Slice} {slices : List Slice} {off n : Nat} (new : New heap slices heap')
    (mem : header ∈ slices) (fits : off + n ≤ header.len) (numeric : n = 1 ∨ n = 2 ∨ n = 4 ∨ n = 8)
    (value : Nat) :
    (Header.setValue heap' header off n value).Yields fun heap'' => New heap slices heap'' :=
  (setValue_yields (new.2 header mem).1 fits numeric value).imp fun _ is => new.write mem is.1

theorem blankEthernet_yields {id : HeaderId} {blank : Outcome (Heap UInt8 × Ethernet Slice)}
    (isBlank : blankEthernet heap id = some blank) :
    blank.Yields fun (heap', eth) =>
      New heap [eth.header] heap' ∧ (Handler.ethernet eth).Shaped Slice.len := by
  have mem (s : Slice) : s ∈ [s] := List.mem_cons_self
  cases id with
  | ethernet =>
    cases isBlank
    exact .pure ⟨.alloc heap (List.replicate 14 0), 0xFFFF, rfl⟩
  | ethernetVlan =>
    cases isBlank
    have new := New.alloc heap (List.replicate 18 0)
    refine (new.setValue (mem _) (by simp [Slice.alloc]) (by decide) _).bind fun heap' new => ?_
    exact .pure ⟨new, 0x8100, rfl⟩
  | ethernet1Q =>
    cases isBlank
    have new := New.alloc heap (List.replicate 22 0)
    refine (new.setValue (mem _) (by simp [Slice.alloc]) (by decide) _).bind fun heap' new => ?_
    refine (new.setValue (mem _) (by simp [Slice.alloc]) (by decide) _).bind fun heap' new => ?_
    exact .pure ⟨new, 0x9100, rfl⟩
  | _ => cases isBlank

theorem Ethernet.modify_allows {eth : Ethernet Slice} (inside : eth.header.Inside heap)
    (shaped : (Handler.ethernet eth).Shaped Slice.len) (id : HeaderId) :
    (eth.modify heap id).Allows fun (heap', eth') =>
      New heap [eth'.header] heap' ∧ (Handler.ethernet eth').Shaped Slice.len := by
  rw [modify]
  split
  · exact .error _
  rw [ethertype_ok inside shaped, Outcome.ok_bind]
  dsimp only
  split
  · exact .error _
  · rename_i blank found
    have isBlank : blankEthernet heap id = some blank := by
      split at found
      · cases found
      · exact found
    refine Or.inl ((blankEthernet_yields isBlank).bind ?_)
    rintro ⟨heap₁, tagged⟩ ⟨new, shapedTagged⟩
    have mem : tagged.header ∈ [tagged.header] := List.mem_cons_self
    have ⟨type, isType⟩ := shapedTagged
    have fits := newEthernet_next type
    rw [isType] at fits
    have large : 14 ≤ tagged.header.len := fits.2
    refine (new.setValue mem (Nat.le_of_eq fits.1) (by decide) _).bind fun heap₂ new => ?_
    have inTagged := (new.2 _ mem).1
    have within : (FieldRef.part 6 6).Within tagged.header := by
      simp only [FieldRef.Within]
      omega
    refine (update_set_yields inTagged within _).bind fun heap₃ only => ?_
    have new := new.write mem only
    have inTagged := (new.2 _ mem).1
    have within : (FieldRef.part 0 6).Within tagged.header := by
      simp only [FieldRef.Within]
      omega
    refine (update_set_yields inTagged within _).bind fun heap₄ only => ?_
    exact .pure ⟨new.write mem only, shapedTagged⟩

end Ethernet

section IP

variable {heap heap' : Heap UInt8}

structure IPHeader.Made (heap heap' : Heap UInt8) (ip : IPHeader Slice) : Prop where
  new : New heap [ip.main] heap'
  shaped : ip.Shaped Slice.len
  plain : ip = .ip4 ip.main 0 ∨ ip = .ip6 ip.main 0 ∨ ip = .gre ip.main .nil .nil 0
  short : ip.size ≤ 40

namespace IPHeader

theorem Made.inside {ip : IPHeader Slice} (made : ip.Made heap heap') : ip.Inside heap' := by
  have live := (made.new.2 _ List.mem_cons_self).1
  have isNil : Slice.nil.Inside heap' := ⟨(Nat.zero_le _).trans_lt live.1, Nat.zero_le _⟩
  intro s part
  rcases made.plain with isIP | isIP | isIP
  · rw [isIP] at part
    rwa [List.mem_singleton.mp part]
  · rw [isIP] at part
    rwa [List.mem_singleton.mp part]
  · rw [isIP] at part
    simp only [slices, List.mem_cons, List.not_mem_nil, or_false] at part
    rcases part with rfl | rfl | rfl
    · exact live
    · exact isNil
    · exact isNil

theorem newIP4_yields (heap : Heap UInt8) :
    (newIP4 heap).Yields fun (heap', ip) =>
      ip.Made heap heap' ∧ ∃ header, ip = .ip4 header 0 ∧ header.len = 20 := by
  have new := New.alloc heap (List.replicate 20 0)
  refine (new.setValue List.mem_cons_self (by simp [Slice.alloc]) (by decide) _).bind fun heap' new => ?_
  refine .pure ⟨⟨new, ?_, Or.inl rfl, ?_⟩, _, rfl, rfl⟩
  · simp [Shaped]
  · simp [IPHeader.size]

theorem newIP6_yields (heap : Heap UInt8) :
    (newIP6 heap).Yields fun (heap', ip) => ip.Made heap heap' := by
  have new := New.alloc heap (List.replicate 40 0)
  generalize isMade : Slice.alloc heap (List.replicate 40 0) = made at new
  obtain ⟨heap₁, header⟩ := made
  have size : header.len = 40 := by
    have size : (Slice.alloc heap (List.replicate 40 0)).2.len = 40 := rfl
    rwa [isMade] at size
  have live := (new.2 _ List.mem_cons_self).1
  have within : (FieldRef.part 0 4).Within header := by
    simp only [FieldRef.Within]
    omega
  have four : ((header.sub 0 4).get heap₁).length = 4 :=
    Slice.get_length ((Slice.covers_sub within).inside live)
  obtain ⟨bits, isBits⟩ : ∃ bits, Field.setBits 28 4 0x6 ((header.sub 0 4).get heap₁) = .ok bits := by
    rw [Field.setBits, if_neg, if_pos]
    · exact ⟨_, rfl⟩
    · exact Or.inr (Or.inr (Or.inl four))
    · rw [four]
      decide
  have only := update_whenever live within (setBits_resizes 28 4 0x6)
  simp only [newIP6, isMade, FieldRef.update, isBits, Outcome.ok_bind] at only ⊢
  exact .pure ⟨new.write List.mem_cons_self (only _ rfl), size, Or.inr (Or.inl rfl), Nat.le_of_eq size⟩

theorem newGRE_yields (heap : Heap UInt8) :
    (newGRE heap).Yields fun (heap', ip) => ip.Made heap heap' := by
  exact .pure ⟨.alloc heap (List.replicate 4 0), ⟨rfl, Or.inl rfl, Or.inl rfl⟩,
    Or.inr (Or.inr rfl), by simp [IPHeader.size, Slice.nil]⟩

theorem update_address {num : Int32} {off : Nat} {header : Slice}
    (isAddress : num = srcField ∧ off = 12 ∨ num = dstField ∧ off = 16)
    (inside : header.Inside heap) (size : header.len = 20) (payload : Nat) (arg : Bytes) :
    (IPHeader.update heap { num } .set arg (.ip4 header payload)).Yields fun (heap', ip, _) =>
      heap.Only [header] heap' ∧ ip = .ip4 header payload := by
  have fits : off + 4 ≤ header.len := by
    rcases isAddress with ⟨-, rfl⟩ | ⟨-, rfl⟩ <;> omega
  have found : IPHeader.field heap IPHeader.ip4Places header { num } = .ok (some (.part off 4)) := by
    have isPart : FieldRef.within header off 4 = some (.part off 4) := if_neg (by omega)
    rcases isAddress with ⟨rfl, rfl⟩ | ⟨rfl, rfl⟩
    · exact congrArg Outcome.ok isPart
    · exact congrArg Outcome.ok isPart
  have within : (FieldRef.part off 4).Within header := fits
  rw [IPHeader.update, updateIP4, found, Outcome.ok_bind]
  obtain ⟨heap', isOk, only⟩ := update_set_yields inside within arg
  simp only [isOk, Outcome.ok_bind]
  exact .pure ⟨only, rfl⟩

theorem set6to4Address_yields {num : Int32} {inner header : Slice} (innerPayload payload : Nat)
    (isAddress : num = srcField ∨ num = dstField) (inInner : inner.Inside heap)
    (innerSize : inner.len = 40) (inside : header.Inside heap) (size : header.len = 20) :
    (set6to4Address heap (.ip6 inner innerPayload) (.ip4 header payload) num).Yields
      fun (heap', ip) => heap.Only [header] heap' ∧ ip = .ip4 header payload := by
  obtain ⟨off, isOff⟩ : ∃ off, num = srcField ∧ off = 8 ∨ num = dstField ∧ off = 24 := by
    rcases isAddress with rfl | rfl <;> simp
  obtain ⟨off', isOff'⟩ : ∃ off, num = srcField ∧ off = 12 ∨ num = dstField ∧ off = 16 := by
    rcases isAddress with rfl | rfl <;> simp
  have fits : off + 16 ≤ inner.len := by
    rcases isOff with ⟨-, rfl⟩ | ⟨-, rfl⟩ <;> omega
  have length : ((inner.sub off 16).get heap).length = 16 :=
    Slice.get_length ((Slice.covers_sub fits).inside inInner)
  rw [set6to4Address, find_ip6 isOff, if_neg (by omega), Outcome.ok_bind]
  simp only [length, ne_eq, not_true_eq_false, if_false]
  obtain ⟨⟨heap', ip, dirty⟩, isOk, only, same⟩ :=
    update_address isOff' inside size payload (slice ((inner.sub off 16).get heap) 2 4)
  rw [isOk]
  exact .pure ⟨only, same⟩

theorem new6to4Tunnel_allows {inner : IPHeader Slice} (inside : inner.Inside heap)
    (shaped : inner.Shaped Slice.len) (id : HeaderId) :
    (new6to4Tunnel heap id inner).Allows fun (heap', ip) => ip.Made heap heap' := by
  unfold new6to4Tunnel
  cases inner with
  | ip6 inner payload =>
    have inInner : inner.Inside heap := inside _ List.mem_cons_self
    simp only [IPHeader.id, ne_eq, not_true_eq_false, if_false]
    obtain ⟨⟨heap₁, outer⟩, isNew, made, header, rfl, size⟩ := newIP4_yields heap
    simp only [isNew, Outcome.ok_bind]
    have new : New heap [header] heap₁ := made.new
    have live := (new.2 _ List.mem_cons_self).1
    have again : ∀ {heap' : Heap UInt8}, heap₁.Only [header] heap' →
        (IPHeader.ip4 header 0).Made heap heap' :=
      fun only => ⟨new.write List.mem_cons_self only, made.shaped, made.plain, made.short⟩
    have innerSize : inner.len = 40 := shaped
    obtain ⟨⟨heap₂, ip⟩, isSet, only₂, rfl⟩ := set6to4Address_yields payload 0
      (Or.inr rfl) (inInner.grown new.1.1) innerSize live size
    cases id with
    | tunnel6to4Auto =>
      simp only [isSet]
      exact .pure (again only₂)
    | tunnel6to4Secure =>
      obtain ⟨⟨heap₃, ip⟩, isSet', only₃, rfl⟩ := set6to4Address_yields payload 0
        (Or.inl rfl) ((inInner.grown new.1.1).grown only₂.1) innerSize (live.grown only₂.1) size
      simp only [isSet, Outcome.wrap_ok, Outcome.ok_bind, isSet']
      exact .pure (again (only₂.trans only₃))
    | _ => exact .error _
  | _ => exact .error _

theorem modify_allows {headers : List (IPHeader Slice)} (nonempty : headers ≠ [])
    (inside : InsideAll heap headers) (shaped : ∀ ip ∈ headers, ip.Shaped Slice.len) (id : HeaderId) :
    (IPHeader.modify heap id headers).Allows fun (heap', headers') =>
      ∃ outer, headers' = outer :: headers ∧ outer.Made heap heap' := by
  obtain ⟨outermost, rest, rfl⟩ := List.exists_cons_of_ne_nil nonempty
  have first := List.mem_cons_self (a := outermost) (l := rest)
  have join : ∀ {made : Outcome (Heap UInt8 × IPHeader Slice)},
      (made.Allows fun (heap', ip) => ip.Made heap heap') →
      (made >>= fun (heap', ip) => (Outcome.ok (heap', ip :: outermost :: rest))).Allows
        fun (heap', headers') =>
          ∃ outer, headers' = outer :: outermost :: rest ∧ outer.Made heap heap' :=
    fun made => made.bind fun _ is => .pure ⟨_, rfl, is⟩
  cases id with
  | gre =>
    by_cases isGRE : outermost.id = .gre
    · simp only [IPHeader.modify, isGRE, if_true]
      exact .error _
    · simp only [IPHeader.modify, isGRE, if_false]
      exact join (Or.inl (newGRE_yields heap))
  | ip4 => exact join (Or.inl ((newIP4_yields heap).imp fun _ is => is.1))
  | ip6 => exact join (Or.inl (newIP6_yields heap))
  | tunnel6to4Auto => exact join (new6to4Tunnel_allows (inside _ first) (shaped _ first) _)
  | tunnel6to4Secure => exact join (new6to4Tunnel_allows (inside _ first) (shaped _ first) _)
  | _ => exact .error _

theorem check6to4Address_allows {num : Int32} (isAddress : num = srcField ∨ num = dstField)
    (inner outer : IPHeader Slice) :
    (check6to4Address heap inner outer num).Allows fun _ => True := by
  unfold check6to4Address
  refine (find_returns isAddress heap 0 inner).bind fun innerIP _ => ?_
  split
  · exact .error _
  refine (find_returns isAddress heap 0 outer).bind fun outerIP _ => ?_
  split
  · exact .error _
  split
  · exact .error _
  split
  · exact .error _
  · exact .pure trivial

theorem check6to4Tunnel_allows (id : HeaderId) (inner outer : IPHeader Slice) :
    (check6to4Tunnel heap id inner outer).Allows fun _ => True := by
  unfold check6to4Tunnel
  split
  · exact .error _
  split
  · exact .error _
  refine ((check6to4Address_allows (Or.inr rfl) inner outer).wrap _).bind fun _ _ => ?_
  split
  · exact (check6to4Address_allows (Or.inl rfl) inner outer).wrap _
  · exact .pure trivial

theorem remove_allows {headers : List (IPHeader Slice)} (nonempty : headers ≠ []) (id : HeaderId) :
    (IPHeader.remove heap id headers).Allows fun headers' => headers' = headers.tail := by
  obtain ⟨outer, rest, rfl⟩ := List.exists_cons_of_ne_nil nonempty
  have tunnel : ∀ inner rest' text, rest = inner :: rest' →
      (((check6to4Tunnel heap id inner outer).wrap text >>= fun _ =>
        Outcome.ok (inner :: rest')).Allows fun headers' => headers' = rest) := by
    rintro inner rest' text rfl
    exact ((check6to4Tunnel_allows id inner outer).wrap text).bind fun _ _ => .pure rfl
  have plain : (if outer.id ≠ id then
        Outcome.error ("ip: Remove header " ++ id.string ++ " failed, outermost header is " ++
          outer.id.string)
      else pure rest).Allows fun headers' => headers' = rest := by
    split
    · exact .error _
    · exact .pure rfl
  cases id with
  | tunnel6to4Auto | tunnel6to4Secure =>
    cases rest with
    | nil => exact .error _
    | cons inner rest => exact tunnel inner rest _ rfl
  | _ => exact plain

end IPHeader

end IP

section Handlers

namespace Handler

variable {heap : Heap UInt8} {handler : Handler Slice}

def Overruns (heap : Heap UInt8) (id : HeaderId) : Handler Slice → Prop
  | .ethernet eth => eth.Overruns heap id
  | _ => False

structure Follows (handler : Handler Slice) (heap' : Heap UInt8) (handler' : Handler Slice) : Prop where
  inside : handler'.Inside heap'
  group : handler'.group = handler.group
  shaped : handler'.size ≠ 0 → handler'.Shaped Slice.len

theorem Follows.emptied {heap' : Heap UInt8} {handler' : Handler Slice} (live : heap'.length ≠ 0)
    (group : handler'.group = handler.group) (slices : handler'.slices = [.nil])
    (empty : handler'.size = 0) : handler.Follows heap' handler' := by
  refine ⟨?_, group, fun nonempty => absurd empty nonempty⟩
  intro s part
  rw [slices, List.mem_singleton] at part
  rw [part]
  exact ⟨Nat.pos_of_ne_zero live, Nat.zero_le _⟩

theorem remove_spec (inside : handler.Inside heap) (shaped : handler.Shaped Slice.len)
    (id : HeaderId) :
    (handler.Overruns heap id → handler.remove heap id = .panic) ∧
      (¬ handler.Overruns heap id →
        (handler.remove heap id).Allows fun (heap', handler') =>
          heap.Only handler'.slices heap' ∧ handler.Follows heap' handler') := by
  cases handler with
  | ethernet eth =>
    have live : eth.header.Inside heap := inside _ List.mem_cons_self
    obtain ⟨crash, returns⟩ := Ethernet.remove_spec live shaped id
    constructor
    · intro overruns
      rw [remove, crash overruns]
      rfl
    · intro fits
      rw [remove]
      refine (returns fits).bind fun (heap', eth') remains => ?_
      refine .pure ⟨remains.only, ?_, rfl, remains.shaped⟩
      intro s part
      rw [List.mem_singleton.mp part]
      exact remains.inside
  | ip linked headers =>
    refine ⟨False.elim, fun _ => ?_⟩
    rw [remove]
    refine (IPHeader.remove_allows shaped.2.1 id).bind ?_
    rintro _ rfl
    refine .pure ⟨.refl _ _, ?_, rfl, fun nonempty => ⟨shaped.1, ?_, ?_⟩⟩
    · intro s part
      obtain ⟨ip, mem, part⟩ := List.mem_flatMap.mp part
      exact inside.headers ip (List.mem_of_mem_tail mem) s part
    · rintro empty
      rw [empty] at nonempty
      exact nonempty rfl
    · exact fun ip mem => shaped.2.2 ip (List.mem_of_mem_tail mem)
  | tcp header | udp header =>
    refine ⟨False.elim, fun _ => ?_⟩
    have live : header.Inside heap := inside _ List.mem_cons_self
    rw [remove]
    split
    · exact .error _
    · exact .pure ⟨.refl _ _, .emptied (Nat.ne_zero_of_lt live.1) rfl rfl rfl⟩
  | _ => exact ⟨False.elim, fun _ => .error _⟩

theorem modify_allows (inside : handler.Inside heap) (shaped : handler.Shaped Slice.len)
    (id : HeaderId) :
    (handler.modify heap id).Allows fun (heap', handler') =>
      heap.Only [] heap' ∧ handler'.Inside heap' ∧ handler'.group = handler.group ∧
        handler'.Shaped Slice.len := by
  cases handler with
  | ethernet eth =>
    have live : eth.header.Inside heap := inside _ List.mem_cons_self
    refine (Ethernet.modify_allows live shaped id).bind fun (heap', eth') ⟨new, shaped'⟩ => ?_
    refine .pure ⟨new.1, ?_, rfl, shaped'⟩
    exact fun s part => (new.2 s part).1
  | ip linked headers =>
    refine (IPHeader.modify_allows shaped.2.1 inside.headers shaped.2.2 id).bind ?_
    rintro ⟨heap', headers'⟩ ⟨outer, rfl, made⟩
    refine .pure ⟨made.new.1, ?_, rfl, shaped.1, nofun, ?_⟩
    · intro s part
      obtain ⟨ip, mem, mine⟩ := List.mem_flatMap.mp part
      rcases List.mem_cons.mp mem with rfl | old
      · exact made.inside s mine
      · exact (inside.headers ip old).grown made.new.1.1 s mine
    · intro ip mem
      rcases List.mem_cons.mp mem with rfl | old
      · exact made.shaped
      · exact shaped.2.2 ip old
  | _ => exact .error _

theorem add_yields {id : HeaderId} {added : Outcome (Heap UInt8 × Handler Slice)}
    (isAdded : Handler.add heap id = some added) :
    added.Yields fun (heap', handler') =>
      heap.Only [] heap' ∧ handler'.Inside heap' ∧ handler'.group = id.group ∧
        (id = .ip4 ∨ id = .ip6 → ∃ headers, handler' = .ip false headers) ∧
        (¬ (id = .ip4 ∨ id = .ip6) → handler'.Shaped Slice.len) := by
  have ip : ∀ {ip : IPHeader Slice} {heap' : Heap UInt8}, ip.Made heap heap' →
      heap.Only [] heap' ∧ (Handler.ip false [ip]).Inside heap' := by
    intro ip heap' made
    refine ⟨made.new.1, fun s part => made.inside s ?_⟩
    simpa [slices] using part
  cases id with
  | ip4 =>
    cases isAdded
    apply (IPHeader.newIP4_yields heap).bind
    rintro ⟨heap', header⟩ ⟨made, -⟩
    exact .pure ⟨(ip made).1, (ip made).2, rfl, fun _ => ⟨_, rfl⟩, fun other => absurd (Or.inl rfl) other⟩
  | ip6 =>
    cases isAdded
    apply (IPHeader.newIP6_yields heap).bind
    rintro ⟨heap', header⟩ made
    exact .pure ⟨(ip made).1, (ip made).2, rfl, fun _ => ⟨_, rfl⟩, fun other => absurd (Or.inr rfl) other⟩
  | udp =>
    cases isAdded
    have new := New.alloc heap (List.replicate 8 0)
    refine .pure ⟨new.1, fun s part => (new.2 s part).1, rfl, fun isIP => absurd isIP (by decide),
      fun _ => ?_⟩
    simp [Shaped]
  | ethernet | ethernetVlan | ethernet1Q =>
    simp only [add, Option.map_eq_some_iff] at isAdded
    obtain ⟨blank, isBlank, rfl⟩ := isAdded
    refine (blankEthernet_yields isBlank).bind ?_
    rintro ⟨heap', eth⟩ ⟨new, shaped⟩
    exact .pure ⟨new.1, fun s part => (new.2 s part).1, rfl, fun isIP => absurd isIP (by decide),
      fun _ => shaped⟩
  | _ => cases isAdded

end Handler

end Handlers

section Chains

namespace Packet

variable {packet : Packet} {heap : Heap UInt8} {front below : List (Desc Slice)} {desc : Desc Slice}

theorem Sound.erase (sound : packet.Sound) (isHeaders : packet.headers = front ++ desc :: below)
    (nonempty : front ≠ []) (grown : packet.heap.Grown heap) :
    Sound { packet with heap, headers := front ++ below } := by
  obtain ⟨md, dirty, rest, isFront⟩ := sound.front isHeaders nonempty
  refine sound.changed grown ⟨md, dirty, rest ++ below, by rw [isFront]; rfl⟩ ?_ ?_
  · have ordered := sound.ordered
    rw [isHeaders, Desc.ordered_append] at ordered
    obtain ⟨before, after, apart⟩ := ordered
    refine Desc.ordered_append.mpr ⟨before, after.2.mono (Nat.zero_le _), ?_⟩
    exact fun first isFront second isBack => apart first isFront second (List.mem_cons_of_mem _ isBack)
  · rw [isHeaders]
    intro other mem
    simp only [List.mem_append, List.mem_cons] at mem ⊢
    tauto

theorem Sound.insert (sound : packet.Sound) (isHeaders : packet.headers = front ++ below)
    (nonempty : front ≠ []) (grown : packet.heap.Grown heap)
    (before : ∀ other ∈ front, other.group.position < desc.group.position)
    (after : ∀ other ∈ below, desc.group.position < other.group.position)
    (inside : desc.handler.Inside heap) (shaped : desc.Sound) :
    Sound { packet with heap, headers := front ++ desc :: below } := by
  obtain ⟨md, dirty, rest, isFront⟩ := sound.front isHeaders nonempty
  refine sound.changed grown ⟨md, dirty, rest ++ desc :: below, by rw [isFront]; rfl⟩ ?_ ?_
  · have ordered := sound.ordered
    rw [isHeaders, Desc.ordered_append] at ordered
    obtain ⟨first, second, apart⟩ := ordered
    refine Desc.ordered_append.mpr ⟨first, ⟨Nat.zero_le _, second.raise after⟩, ?_⟩
    intro one isFront other isBack
    rcases List.mem_cons.mp isBack with rfl | later
    · exact before one isFront
    · exact apart one isFront other later
  · rw [isHeaders]
    intro other mem
    rcases List.mem_append.mp mem with isFront | _ | ⟨_, isBelow⟩
    · exact Or.inl (List.mem_append_left _ isFront)
    · exact Or.inr ⟨inside, shaped⟩
    · exact Or.inl (List.mem_append_right _ isBelow)

variable {above below : List (Desc Slice)}

theorem rebuildHeaders_sound (nonempty : above ≠ [])
    (sound : Sound { packet with heap, headers := above.reverse ++ below }) :
    (rebuildHeaders heap above below).Yields fun (heap', headers) =>
      heap.Only (Desc.reach (above ++ below)) heap' ∧
        headers.map Desc.form = (above.reverse ++ below).map Desc.form ∧
        Sound { packet with heap := heap', headers } ∧
        recorded { packet with heap := heap', headers } = Desc.size headers := by
  have mem : ∀ desc ∈ above ++ below, desc ∈ above.reverse ++ below := by
    simp
  refine (rebuildHeaders_yields (fun desc isDesc => sound.inside desc (mem desc isDesc))
    fun desc isDesc => sound.sound desc (mem desc isDesc)).imp ?_
  rintro ⟨heap', headers⟩ ⟨only, same, -, counted⟩
  have sound' : Sound { packet with heap := heap', headers } := sound.of_form only.1 same
  refine ⟨only, same, sound', ?_⟩
  obtain ⟨md, dirty, rest, isFirst⟩ := sound'.metadata
  obtain rfl : headers = _ := isFirst
  have length := counted nonempty _ _ md rfl rfl
  simp [recorded, Desc.size, Handler.size, length]

theorem Sound.above_ne_nil (sound : packet.Sound)
    (isHeaders : packet.headers = above.reverse ++ desc :: below)
    (notMetadata : ∀ md, desc.handler ≠ .metadata md) : above ≠ [] := by
  rintro rfl
  obtain ⟨md, dirty, rest, isFirst⟩ := sound.metadata
  rw [isHeaders] at isFirst
  cases isFirst
  exact notMetadata md rfl

structure Spliced (packet packet' : Packet) : Prop where
  sound : packet'.Sound
  start : packet'.start = packet.start
  recorded : packet'.recorded = packet'.size

theorem Sound.rebuild (nonempty : above ≠ [])
    (sound : Sound { packet with heap, headers := above.reverse ++ below }) :
    (rebuildHeaders heap above below >>= fun (heap', headers) =>
      Outcome.ok { packet with heap := heap', headers }).Yields (Spliced packet) := by
  refine (rebuildHeaders_sound nonempty sound).bind ?_
  rintro ⟨heap', headers⟩ ⟨-, -, sound', recorded⟩
  exact .pure ⟨sound', rfl, recorded⟩

variable {id : HeaderId}

variable {handler₁ : Handler Slice} {heap₁ : Heap UInt8}

theorem Sound.removed (sound : packet.Sound)
    (found : slot id.group [] packet.headers = some (above, desc, below))
    (isOk : desc.handler.remove packet.heap id = .ok (heap₁, handler₁)) :
    above ≠ [] ∧ Sound { packet with
      heap := (handler₁.header heap₁).1
      headers := above.reverse ++ (if (handler₁.header heap₁).2.length = 0 then below
        else { desc with handler := handler₁, dirty := true } :: below) } := by
  obtain ⟨isHeaders, mem, -⟩ := sound.slot_eq found
  have soundDesc := sound.sound desc mem
  obtain ⟨crash, returns⟩ := Handler.remove_spec (sound.inside desc mem) soundDesc.1 id
  have fits : ¬ desc.handler.Overruns packet.heap id := by
    intro overruns
    rw [crash overruns] at isOk
    cases isOk
  obtain ⟨only₁, follows⟩ := (returns fits).whenever _ isOk
  have nonempty := sound.above_ne_nil isHeaders fun md isMetadata => by
    rw [isMetadata] at isOk
    cases isOk
  have only₂ := Handler.header_only follows.inside
  have length := Handler.header_length follows.inside
  have grown := only₁.1.trans only₂.1
  refine ⟨nonempty, ?_⟩
  rw [length]
  split
  · exact sound.erase isHeaders (by simpa using nonempty) grown
  · rename_i remains
    exact sound.replace isHeaders grown rfl (follows.inside.grown only₂.1)
      ⟨follows.shaped remains, soundDesc.2.trans follows.group.symm⟩

theorem Sound.modified (sound : packet.Sound)
    (found : slot id.group [] packet.headers = some (above, desc, below))
    (isOk : desc.handler.modify packet.heap id = .ok (heap₁, handler₁)) :
    above ≠ [] ∧ Sound { packet with
      heap := heap₁
      headers := above.reverse ++ { desc with handler := handler₁, dirty := true } :: below } := by
  obtain ⟨isHeaders, mem, -⟩ := sound.slot_eq found
  have soundDesc := sound.sound desc mem
  obtain ⟨only, inside, sameGroup, shaped⟩ :=
    (Handler.modify_allows (sound.inside desc mem) soundDesc.1 id).whenever _ isOk
  refine ⟨sound.above_ne_nil isHeaders fun md isMetadata => ?_,
    sound.replace isHeaders only.1 rfl inside ⟨shaped, soundDesc.2.trans sameGroup.symm⟩⟩
  rw [isMetadata] at isOk
  cases isOk

theorem decap_spec (sound : packet.Sound) (id : HeaderId) :
    ((∃ desc ∈ packet.headers, desc.handler.Overruns packet.heap id) → packet.decap id = .panic) ∧
      ((¬ ∃ desc ∈ packet.headers, desc.handler.Overruns packet.heap id) →
        (packet.decap id).Allows (Spliced packet)) := by
  constructor
  · rintro ⟨desc, mem, overruns⟩
    have isGroup := (sound.sound desc mem).2
    have removed := (Handler.remove_spec (sound.inside desc mem) (sound.sound desc mem).1 id).1 overruns
    cases isHandler : desc.handler with
    | ethernet eth =>
      rw [isHandler] at overruns isGroup
      obtain ⟨rfl, -, -, -⟩ := overruns
      cases found : slot .l2 [] packet.headers with
      | none => exact absurd isGroup (slot_none.mp found desc mem)
      | some place =>
        obtain ⟨above, other, below⟩ := place
        obtain ⟨-, isOther, isL2⟩ := sound.slot_eq found
        obtain rfl := sound.ordered.unique mem isOther
          (isGroup.trans ((sound.sound other isOther).2.trans isL2).symm)
        rw [decap, if_neg (by decide)]
        have isL2 : HeaderId.ethernetVlan.group = .l2 := rfl
        rw [isL2, found]
        simp only [removed]
        rfl
    | _ =>
      rw [isHandler] at overruns
      exact overruns.elim
  · intro fits
    rw [decap]
    split
    · exact .error _
    cases found : slot id.group [] packet.headers with
    | none => exact .error _
    | some place =>
      obtain ⟨above, desc, below⟩ := place
      obtain ⟨isHeaders, mem, isGroup⟩ := sound.slot_eq found
      have soundDesc := sound.sound desc mem
      have removed := (Handler.remove_spec (sound.inside desc mem) soundDesc.1 id).2
        fun overruns => fits ⟨desc, mem, overruns⟩
      dsimp only
      rcases removed with ⟨⟨heap₁, handler'⟩, isOk, -⟩ | ⟨message, isError⟩
      · obtain ⟨nonempty, sound'⟩ := sound.removed found isOk
        simp only [isOk, Outcome.wrap_ok, Outcome.ok_bind]
        exact Or.inl (Sound.rebuild nonempty sound')
      · rw [isError]
        exact .error _

variable {g : HeaderGroup}

theorem find?_nearest {groups : List HeaderGroup} {p : HeaderGroup → Bool} {d : HeaderGroup}
    (descending : groups.Pairwise fun a b => b.position < a.position)
    (found : groups.find? p = some g) (mem : d ∈ groups) (holds : p d = true) :
    d.position ≤ g.position := by
  obtain ⟨-, before, after, rfl, fails⟩ := List.find?_eq_some_iff_append.mp found
  rcases List.mem_append.mp mem with earlier | later
  · simpa [holds] using fails d earlier
  · rcases List.mem_cons.mp later with rfl | later
    · exact Nat.le_refl _
    · exact Nat.le_of_lt ((List.pairwise_cons.mp (List.pairwise_append.mp descending).2.1).1 d later)

variable {group : HeaderGroup}

theorem before_mem (lt : g.position < group.position)
    (known : g ≠ .unspecified) : g ∈ (sequence.take group.position).reverse := by
  rw [List.mem_reverse]
  cases g with
  | unspecified => exact absurd rfl known
  | _ => cases group <;> revert lt <;> decide

theorem before_lt (mem : g ∈ (sequence.take group.position).reverse) :
    g.position < group.position := by
  rw [List.mem_reverse] at mem
  revert mem
  cases group <;> cases g <;> decide

theorem before_descending (group : HeaderGroup) :
    (sequence.take group.position).reverse.Pairwise fun a b => b.position < a.position := by
  cases group <;> decide

theorem groupBefore_some (sound : packet.Sound) (missing : slot group [] packet.headers = none)
    (later : 0 < group.position) :
    ∃ g above prev below, packet.groupBefore group = some g ∧
      slot g [] packet.headers = some (above, prev, below) ∧
      (∀ other ∈ prev :: above, other.group.position < group.position) ∧
      (∀ other ∈ below, group.position < other.group.position) := by
  have live : ∀ g, (slot g [] packet.headers).isSome ↔ ∃ desc ∈ packet.headers, desc.group = g := by
    intro g
    rw [← not_iff_not, Bool.not_eq_true, Option.isSome_eq_false_iff, Option.isNone_iff_eq_none, slot_none]
    simp
  have hasPacket : ∃ desc ∈ packet.headers, desc.group = .packet := by
    obtain ⟨md, dirty, rest, isFirst⟩ := sound.metadata
    exact ⟨_, by rw [isFirst]; exact List.mem_cons_self, rfl⟩
  obtain ⟨g, isGroup⟩ : ∃ g, packet.groupBefore group = some g := by
    rw [← Option.isSome_iff_exists, groupBefore, List.find?_isSome]
    exact ⟨.packet, before_mem later (by decide), (live _).mpr hasPacket⟩
  have isLive : (slot g [] packet.headers).isSome :=
    List.find?_some (p := fun g => (slot g [] packet.headers).isSome) isGroup
  have lt := before_lt (List.mem_of_find?_eq_some isGroup)
  obtain ⟨⟨above, prev, below⟩, found⟩ := Option.isSome_iff_exists.mp isLive
  obtain ⟨joined, isPrev⟩ := slot_some found
  have isHeaders : packet.headers = above.reverse ++ prev :: below := joined.symm
  have ordered := sound.ordered
  rw [isHeaders, Desc.ordered_append] at ordered
  obtain ⟨-, after, apart⟩ := ordered
  refine ⟨g, above, prev, below, isGroup, found, ?_, ?_⟩
  · intro other mem
    rcases List.mem_cons.mp mem with rfl | isAbove
    · rwa [isPrev]
    · have := apart other (List.mem_reverse.mpr isAbove) prev List.mem_cons_self
      rw [isPrev] at this
      omega
  · intro other isBelow
    have behind := after.2.low_le other isBelow
    rw [isPrev] at behind
    have mem : other ∈ packet.headers := by simp [isHeaders, isBelow]
    have different : other.group.position ≠ group.position := by
      intro same
      refine slot_none.mp missing other mem ?_
      revert same
      cases other.group <;> cases group <;> decide
    by_contra notAfter
    have before : other.group.position < group.position := by omega
    have known : other.group ≠ .unspecified := by
      intro unknown
      rw [unknown] at before
      revert before
      cases group <;> decide
    have near := find?_nearest (before_descending group) isGroup (before_mem before known)
      ((live _).mpr ⟨other, mem, rfl⟩)
    omega

theorem add_group {added : Outcome (Heap UInt8 × Handler Slice)}
    (isAdded : Handler.add heap id = some added) :
    id.group ≠ .unspecified ∧ 0 < id.group.position := by
  cases id with
  | ip4 | ip6 | udp | ethernet | ethernetVlan | ethernet1Q => decide
  | _ => cases isAdded

theorem Sound.added {prev : Desc Slice} {added : Outcome (Heap UInt8 × Handler Slice)}
    (sound : packet.Sound) (missing : slot id.group [] packet.headers = none)
    (isBefore : packet.groupBefore id.group = some group)
    (isPrev : slot group [] packet.headers = some (above, prev, below))
    (isAdded : Handler.add packet.heap id = some added) (isOk : added = .ok (heap₁, handler₁))
    (notIP : ¬ (id = .ip4 ∨ id = .ip6)) :
    Sound { packet with
      heap := heap₁
      headers := (⟨id.group, handler₁, true⟩ :: prev :: above).reverse ++ below } := by
  obtain ⟨only, inside, isGroup, -, shaped⟩ := (Handler.add_yields isAdded).whenever _ isOk
  obtain ⟨g, above', prev', below', isBefore', isPrev', before, after⟩ :=
    groupBefore_some sound missing (add_group isAdded).2
  obtain rfl : group = g := Option.some.inj (isBefore.symm.trans isBefore')
  rw [isPrev] at isPrev'
  cases isPrev'
  have isHeaders : packet.headers = (prev :: above).reverse ++ below := by
    simpa using (slot_some isPrev).1.symm
  have sound' : Sound { packet with
      heap := heap₁
      headers := (prev :: above).reverse ++ ⟨id.group, handler₁, true⟩ :: below } :=
    sound.insert isHeaders (by simp) only.1
      (fun other mem => before other (List.mem_reverse.mp mem)) after inside
      ⟨shaped notIP, isGroup.symm⟩
  simpa using sound'

theorem rebuild_unlinked {payload : Heap UInt8 → List (Desc Slice) → List (Desc Slice) →
      Outcome (Heap UInt8 × Bytes × List (Desc Slice))} {self : Desc Slice}
    {headers : List (IPHeader Slice)}
    (unlinked : self.handler = .ip false headers) :
    Handler.rebuild heap payload above below self = .panic := by
  rw [Handler.rebuild, unlinked]
  rfl

theorem added_not_ip {heap₂ : Heap UInt8} {headers : List (Desc Slice)}
    {added : Outcome (Heap UInt8 × Handler Slice)} (isAdded : Handler.add heap id = some added)
    (isOk : added = .ok (heap₁, handler₁))
    (rebuilt : rebuildHeaders heap₁ (⟨id.group, handler₁, true⟩ :: above) below =
      .ok (heap₂, headers)) :
    ¬ (id = .ip4 ∨ id = .ip6) ∧ ∀ linked ips, handler₁ ≠ .ip linked ips := by
  obtain ⟨-, -, isGroup, unlinked, -⟩ := (Handler.add_yields isAdded).whenever _ isOk
  have notIP : ¬ (id = .ip4 ∨ id = .ip6) := by
    intro isIP
    obtain ⟨ips, isHandler⟩ := unlinked isIP
    rw [rebuildHeaders, rebuild_unlinked isHandler] at rebuilt
    cases rebuilt
  refine ⟨notIP, ?_⟩
  rintro linked ips rfl
  have isL3 : HeaderGroup.l3 = id.group := isGroup
  cases id with
  | ip4 => exact notIP (Or.inl rfl)
  | ip6 => exact notIP (Or.inr rfl)
  | udp | ethernet | ethernetVlan | ethernet1Q => cases isL3
  | _ => cases isAdded

theorem encap_spec (sound : packet.Sound) (id : HeaderId) :
    ((id = .ip4 ∨ id = .ip6) ∧ (∀ desc ∈ packet.headers, desc.group ≠ .l3) →
        packet.encap id = .panic) ∧
      (¬ ((id = .ip4 ∨ id = .ip6) ∧ ∀ desc ∈ packet.headers, desc.group ≠ .l3) →
        (packet.encap id).Allows (Spliced packet)) := by
  cases found : slot id.group [] packet.headers with
  | some place =>
    obtain ⟨above, desc, below⟩ := place
    obtain ⟨isHeaders, mem, isGroup⟩ := sound.slot_eq found
    have soundDesc := sound.sound desc mem
    constructor
    · rintro ⟨isIP, noL3⟩
      refine absurd ?_ (noL3 desc mem)
      rw [soundDesc.2, isGroup]
      rcases isIP with rfl | rfl <;> rfl
    · intro _
      rw [encap]
      split
      · exact .error _
      simp only [found]
      rcases Handler.modify_allows (sound.inside desc mem) soundDesc.1 id with
        ⟨⟨heap₁, handler'⟩, isOk, -⟩ | ⟨message, isError⟩
      · obtain ⟨nonempty, sound'⟩ := sound.modified found isOk
        simp only [isOk, Outcome.wrap_ok, Outcome.ok_bind]
        exact Or.inl (Sound.rebuild nonempty sound')
      · rw [isError]
        exact .error _
  | none =>
    cases isAdded : Handler.add packet.heap id with
    | none =>
      constructor
      · rintro ⟨rfl | rfl, -⟩ <;> cases isAdded
      · intro _
        rw [encap]
        split
        · exact .error _
        · simp only [found, isAdded]
          exact .error _
    | some added =>
      obtain ⟨known, later⟩ := add_group isAdded
      obtain ⟨g, above, prev, below, isBefore, isPrev, -, -⟩ := groupBefore_some sound found later
      obtain ⟨⟨heap', handler'⟩, isOk, -, -, -, unlinked, -⟩ := Handler.add_yields isAdded
      have isEncap : packet.encap id =
          (rebuildHeaders heap' (⟨id.group, handler', true⟩ :: prev :: above) below >>=
            fun s => Outcome.ok { packet with heap := s.1, headers := s.2 }) := by
        rw [encap, if_neg known]
        simp only [found, isAdded, isBefore, Option.bind_some, isPrev, isOk, Outcome.wrap_ok,
          Outcome.ok_bind]
        rfl
      constructor
      · rintro ⟨isIP, -⟩
        obtain ⟨headers, isHandler⟩ := unlinked isIP
        rw [isEncap, rebuildHeaders, rebuild_unlinked isHandler]
        rfl
      · intro linked
        have notIP : ¬ (id = .ip4 ∨ id = .ip6) := by
          intro isIP
          refine linked ⟨isIP, ?_⟩
          have isL3 : id.group = .l3 := by
            rcases isIP with rfl | rfl <;> rfl
          rw [← isL3]
          exact slot_none.mp found
        rw [isEncap]
        exact Or.inl (Sound.rebuild (by rintro ⟨⟩) (sound.added found isBefore isPrev isAdded isOk notIP))

variable {packet' : Packet}

theorem decap_cases (isOk : packet.decap id = .ok packet') :
    ∃ above desc below heap₁ handler₁,
      slot id.group [] packet.headers = some (above, desc, below) ∧
      desc.handler.remove packet.heap id = .ok (heap₁, handler₁) ∧
      rebuildHeaders (handler₁.header heap₁).1 above
        (if (handler₁.header heap₁).2.length = 0 then below
          else { desc with handler := handler₁, dirty := true } :: below) =
        .ok (packet'.heap, packet'.headers) := by
  unfold decap at isOk
  split at isOk
  · cases isOk
  split at isOk
  · cases isOk
  · next above desc below found =>
    obtain ⟨⟨heap₁, handler₁⟩, removed, isOk⟩ := Outcome.bind_eq_ok.mp isOk
    obtain ⟨⟨heap₂, headers⟩, rebuilt, isOk⟩ := Outcome.bind_eq_ok.mp isOk
    cases isOk
    exact ⟨above, desc, below, heap₁, handler₁, found, Outcome.wrap_eq_ok.mp removed, rebuilt⟩

theorem encap_cases (isOk : packet.encap id = .ok packet') :
    (∃ above desc below heap₁ handler₁,
      slot id.group [] packet.headers = some (above, desc, below) ∧
      desc.handler.modify packet.heap id = .ok (heap₁, handler₁) ∧
      rebuildHeaders heap₁ above ({ desc with handler := handler₁, dirty := true } :: below) =
        .ok (packet'.heap, packet'.headers)) ∨
    ∃ group above prev below added heap₁ handler₁,
      slot id.group [] packet.headers = none ∧
      packet.groupBefore id.group = some group ∧
      slot group [] packet.headers = some (above, prev, below) ∧
      Handler.add packet.heap id = some added ∧ added = .ok (heap₁, handler₁) ∧
      rebuildHeaders heap₁ (⟨id.group, handler₁, true⟩ :: prev :: above) below =
        .ok (packet'.heap, packet'.headers) := by
  unfold encap at isOk
  split at isOk
  · cases isOk
  split at isOk
  · next above desc below found =>
    obtain ⟨⟨heap₁, handler₁⟩, modified, isOk⟩ := Outcome.bind_eq_ok.mp isOk
    obtain ⟨⟨heap₂, headers⟩, rebuilt, isOk⟩ := Outcome.bind_eq_ok.mp isOk
    cases isOk
    exact Or.inl ⟨above, desc, below, heap₁, handler₁, found, Outcome.wrap_eq_ok.mp modified, rebuilt⟩
  · next missing =>
    split at isOk
    · cases isOk
    · next added isAdded =>
      split at isOk
      · cases isOk
      · next above prev below isPlace =>
        obtain ⟨group, isGroup, isPrev⟩ := Option.bind_eq_some_iff.mp isPlace
        obtain ⟨⟨heap₁, handler₁⟩, made, isOk⟩ := Outcome.bind_eq_ok.mp isOk
        obtain ⟨⟨heap₂, headers⟩, rebuilt, isOk⟩ := Outcome.bind_eq_ok.mp isOk
        cases isOk
        exact Or.inr ⟨group, above, prev, below, added, heap₁, handler₁, missing, isGroup, isPrev,
          isAdded, Outcome.wrap_eq_ok.mp made, rebuilt⟩

theorem encap_spliced (sound : packet.Sound)
    (isOk : packet.encap id = .ok packet') : packet.Spliced packet' := by
  obtain ⟨crash, returns⟩ := encap_spec sound id
  by_cases unlinked : (id = .ip4 ∨ id = .ip6) ∧ ∀ desc ∈ packet.headers, desc.group ≠ .l3
  · rw [crash unlinked] at isOk
    cases isOk
  · exact (returns unlinked).whenever _ isOk

theorem decap_spliced (sound : packet.Sound)
    (isOk : packet.decap id = .ok packet') : packet.Spliced packet' := by
  obtain ⟨crash, returns⟩ := decap_spec sound id
  by_cases overruns : ∃ desc ∈ packet.headers, desc.handler.Overruns packet.heap id
  · rw [crash overruns] at isOk
    cases isOk
  · exact (returns overruns).whenever _ isOk

end Packet

end Chains

end Lemming.Protocol
