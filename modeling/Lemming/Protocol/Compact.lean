import Lemming.Protocol.Placement

set_option autoImplicit false

namespace Lemming.Protocol

open Shared Lemming.Packet

section Headers

variable {heap : Heap UInt8}

namespace IPHeader

-- The options of a GRE header stand right behind it. Then appending them to the header for a frame
-- writes the bytes that are there already.
def Compact : IPHeader Slice → Prop
  | .gre header key seq _ =>
    (key.len = 0 ∨ key = header.sub header.len key.len) ∧
      (seq.len = 0 ∨ seq = header.sub (header.len + key.len) seq.len)
  | _ => True

theorem append_compact {s t : Slice} (inside : s.Inside heap) (inOption : t.Inside heap)
    (compact : t.len = 0 ∨ t = s.sub s.len t.len) :
    s.append heap (t.get heap) = (heap, { s with len := s.len + t.len }) := by
  rcases compact with empty | behind
  · have none : t.get heap = [] := List.eq_nil_of_length_eq_zero ((Slice.get_length inOption).trans empty)
    rw [none, Slice.append_nothing inside, empty]
    rfl
  · exact Slice.append_behind inOption (by rw [behind]; rfl) (by rw [behind]; rfl)

def whole : IPHeader Slice → Slice
  | .ip4 header _ => header
  | .ip6 header _ => header
  | .gre header key seq _ => { header with len := header.len + key.len + seq.len }

variable {ip : IPHeader Slice}

theorem header_compact (inside : ip.Inside heap) (compact : ip.Compact) :
    ip.header heap = (heap, ip.whole) := by
  cases ip with
  | ip4 header payload => rfl
  | ip6 header payload => rfl
  | gre header key seq payload =>
    obtain ⟨inHeader, inKey, inSeq⟩ := inside_gre.mp inside
    have first := append_compact inHeader inKey compact.1
    have inFirst : Slice.Inside heap { header with len := header.len + key.len } := by
      have grown : (header.append heap (key.get heap)).2.Inside
          (header.append heap (key.get heap)).1 := Slice.append_inside inHeader
      rwa [first] at grown
    have second := append_compact inFirst inSeq compact.2
    simp only [IPHeader.header, first]
    exact second

theorem headerAll_compact {headers : List (IPHeader Slice)} (inside : InsideAll heap headers)
    (compact : ∀ ip ∈ headers, ip.Compact) :
    headerAll heap headers = (heap, headers.map whole) := by
  induction headers with
  | nil => rfl
  | cons ip inner ih =>
    rw [headerAll, header_compact (inside ip List.mem_cons_self) (compact ip List.mem_cons_self)]
    simp only
    rw [ih (fun other mem => inside other (List.mem_cons_of_mem _ mem))
      fun other mem => compact other (List.mem_cons_of_mem _ mem)]
    rfl

theorem compact_of_form {ip' : IPHeader Slice} (same : ip'.form = ip.form) (compact : ip.Compact) :
    ip'.Compact := by
  cases ip <;> cases ip' <;> cases same <;> exact compact

end IPHeader

namespace Handler

def Compact : Handler Slice → Prop
  | .ip _ headers => ∀ ip ∈ headers, ip.Compact
  | _ => True

variable {handler : Handler Slice}

theorem header_compact (inside : handler.Inside heap) (compact : handler.Compact) :
    (handler.header heap).1 = heap := by
  cases handler with
  | ip linked headers =>
    simp only [Handler.header, IPHeader.headerAll_compact inside.headers compact]
  | _ => rfl

theorem compact_of_form {handler' : Handler Slice} (same : handler'.form = handler.form)
    (compact : handler.Compact) : handler'.Compact := by
  cases handler' with
  | ip linked' headers' =>
    cases handler with
    | ip linked headers =>
      obtain ⟨-, same⟩ := Handler.ip.inj same
      intro ip' mem
      obtain ⟨ip, isIP, form⟩ := exists_of_map_eq same mem
      exact IPHeader.compact_of_form form.symm (compact ip isIP)
    | _ => cases same
  | _ => trivial

end Handler

namespace Desc

def Compact (descs : List (Desc Slice)) : Prop :=
  ∀ desc ∈ descs, desc.handler.Compact

end Desc

end Headers

section Operations

variable {heap heap' : Heap UInt8}

theorem IPHeader.Made.compact {ip : IPHeader Slice} (made : ip.Made heap heap') : ip.Compact := by
  rcases made.plain with isIP | isIP | isIP
  · rw [isIP]
    trivial
  · rw [isIP]
    trivial
  · rw [isIP]
    exact ⟨Or.inl rfl, Or.inl rfl⟩

-- A property of the headers of the L3 group that the operations on a packet keep: rebuilding does not
-- change the form of a header, and headers are only taken off or put on at the front.
structure IPHeader.Kept (Q : List (IPHeader Slice) → Prop) : Prop where
  form : ∀ {headers headers' : List (IPHeader Slice)},
    headers'.map IPHeader.form = headers.map IPHeader.form → Q headers → Q headers'
  tail : ∀ {headers : List (IPHeader Slice)}, Q headers → Q headers.tail
  made : ∀ {heap heap' : Heap UInt8} {headers : List (IPHeader Slice)} {outer : IPHeader Slice},
    IPHeader.InsideAll heap headers → outer.Made heap heap' → Q headers → Q (outer :: headers)

namespace Handler

def Each (Q : List (IPHeader Slice) → Prop) (handler : Handler Slice) : Prop :=
  ∀ linked headers, handler = .ip linked headers → Q headers

variable {handler handler' : Handler Slice} {Q : List (IPHeader Slice) → Prop}

theorem Each.form (kept : IPHeader.Kept Q) (same : handler'.form = handler.form)
    (each : handler.Each Q) : handler'.Each Q := by
  rintro linked headers' rfl
  cases handler with
  | ip linked headers => exact kept.form (Handler.ip.inj same).2 (each linked headers rfl)
  | _ => cases same

end Handler

namespace Packet

variable {packet : Packet}

section

variable {headers front back : List (Desc Slice)} {desc changed : Desc Slice}

theorem mem_replaced (isHeaders : headers = front ++ desc :: back) :
    ∀ other ∈ front ++ changed :: back, other ∈ headers ∨ other = changed := by
  intro other mem
  rw [isHeaders]
  simp only [List.mem_append, List.mem_cons] at mem ⊢
  tauto

theorem mem_added (isHeaders : headers = front.reverse ++ desc :: back) :
    ∀ other ∈ (changed :: desc :: front).reverse ++ back, other ∈ headers ∨ other = changed := by
  intro other mem
  rw [isHeaders]
  simp only [List.reverse_cons, List.append_assoc, List.mem_append, List.mem_cons] at mem ⊢
  tauto

end

theorem rebuildHeaders_form {above below headers : List (Desc Slice)} {heap₁ heap₂ : Heap UInt8}
    (sound : Sound { packet with heap := heap₁, headers := above.reverse ++ below })
    (isOk : rebuildHeaders heap₁ above below = .ok (heap₂, headers)) :
    headers.map Desc.form = (above.reverse ++ below).map Desc.form := by
  have mem : ∀ desc ∈ above ++ below, desc ∈ above.reverse ++ below := by simp
  exact ((rebuildHeaders_yields (fun desc isDesc => sound.inside desc (mem desc isDesc))
    fun desc isDesc => sound.sound desc (mem desc isDesc)).whenever _ isOk).2.1

def Each (Q : List (IPHeader Slice) → Prop) (packet : Packet) : Prop :=
  ∀ desc ∈ packet.headers, desc.handler.Each Q

end Packet

theorem IPHeader.compact_kept : Kept fun headers => ∀ ip ∈ headers, ip.Compact where
  form := by
    intro headers headers' same compact ip' mem
    obtain ⟨ip, isIP, form⟩ := exists_of_map_eq same mem
    exact compact_of_form form.symm (compact ip isIP)
  tail := fun compact ip mem => compact ip (List.mem_of_mem_tail mem)
  made := by
    intro heap heap' headers outer _ made compact ip mem
    rcases List.mem_cons.mp mem with rfl | old
    · exact made.compact
    · exact compact ip old

theorem IPHeader.placeAll_compact {headers : List (IPHeader Bytes)} {off : Nat} :
    ∀ ip ∈ placeAll off headers, ip.Compact := by
  induction headers generalizing off with
  | nil => exact nofun
  | cons ip inner ih =>
    rintro placed (_ | ⟨_, mem⟩)
    · cases ip with
      | gre header key seq payload =>
        refine ⟨Or.inr rfl, Or.inr ?_⟩
        simp only [Slice.sub, Nat.add_assoc]
      | _ => trivial
    · exact ih placed mem

theorem Desc.placeAll_compact {descs : List (Desc Bytes)} {off : Nat} :
    Compact (placeAll off descs) := by
  induction descs generalizing off with
  | nil => exact nofun
  | cons desc below ih =>
    rintro placed (_ | ⟨_, mem⟩)
    · cases isHandler : desc.handler with
      | ip linked headers => exact IPHeader.placeAll_compact
      | _ => trivial
    · exact ih placed mem

end Operations

end Lemming.Protocol
