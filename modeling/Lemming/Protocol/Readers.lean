import Lemming.Protocol.Parse
import Lemming.Shared.HeaderChain

set_option autoImplicit false

namespace Lemming.Protocol

open Shared Lemming.Packet

section Fields

variable (header : Bytes)

def etherType : Nat := octetsValue (slice header 12 2)

def ihl : Nat := octetsValue (slice header 0 1) % 16

def ipVersion : Nat := octetsValue (slice header 0 1) / 16

def greFlag (bit : Nat) : Nat := octetsValue (slice header 0 1) / 2 ^ bit % 2

def dataOffset : Nat := octetsValue (slice header 12 2) / 2 ^ 12

def icmpType : Nat := octetsValue (slice header 0 1)

end Fields

-- A list of neighbour-discovery options: each has a type, a length in units of eight bytes that is not
-- zero, and a value. The last value may be cut off.
inductive NDList : Bytes → Prop where
  | done : NDList []
  | option (type length : UInt8) (tail : Bytes) (nonzero : length ≠ 0)
      (more : NDList ((type :: length :: tail).drop (8 * length.toNat))) :
      NDList (type :: length :: tail)

def Reads (id : HeaderId) (header rest : Bytes) : Prop :=
  match id with
  | .ethernet | .ethernetVlan | .ethernet1Q =>
    (newEthernet (etherType header)).1.id = id ∧ header.length = (newEthernet (etherType header)).2
  | .ip4 => 3 ≤ ihl header ∧ header.length = 4 * ihl header
  | .ip6 => header.length = 40
  | .gre => header.length = 4 + 4 * greFlag header 5 + 4 * greFlag header 4
  | .tcp => 5 ≤ dataOffset header ∧ header.length = 4 * dataOffset header
  | .arp => header.length = 28
  -- These take all that is left of the frame.
  | .udp | .icmp4 => 8 ≤ header.length ∧ rest = []
  | .icmp6 =>
    8 ≤ header.length ∧ rest = [] ∧
      ∀ offset, optionOffset.lookup (icmpType header) = some offset → NDList (header.drop offset)
  | .opaqueData => rest = []
  | _ => False

def follow (id : HeaderId) (header : Bytes) : HeaderId :=
  match id with
  | .ethernet | .ethernetVlan | .ethernet1Q =>
    (nextHeader.lookup (octetsValue (slice header (newEthernet (etherType header)).1.next 2))).getD
      .opaqueData
  | .ip4 => (protoHeader.lookup (octetsValue (slice header 9 1))).getD .opaqueData
  | .ip6 => (protoHeader.lookup (octetsValue (slice header 6 1))).getD .opaqueData
  | .gre => (nextHeader.lookup (octetsValue (slice header 2 2))).getD .opaqueData
  | .tcp | .udp => .opaqueData
  | _ => .none

def HeaderId.InTunnel (id : HeaderId) : Prop :=
  id = .ip4 ∨ id = .ip6 ∨ id = .gre

instance (id : HeaderId) : Decidable id.InTunnel :=
  inferInstanceAs (Decidable (_ ∨ _))

def packetFormat : Format HeaderId UInt8 where
  stop := .none
  Reads := Reads
  next := fun id header rest => if id.InTunnel ∧ rest = [] then .none else follow id header

-- The kind of the first header, which may be left to the frame. A packet cannot start with a GRE
-- header.
def resolve (start : HeaderId) (frame : Bytes) : HeaderId :=
  match start with
  | .gre => .unspecified
  | .ethernet | .ethernetVlan | .ethernet1Q => (newEthernet (etherType frame)).1.id
  | .ip => if ipVersion frame = 4 then .ip4 else if ipVersion frame = 6 then .ip6 else .ip
  | id => id

def ShortIP4 (frame : Bytes) : Prop :=
  1 ≤ frame.length ∧ ihl frame < 3 ∧ 4 * ihl frame ≤ frame.length

-- The ways a parse function of headers of one kind can end: it reads the header, it refuses a frame
-- that does not start with one, or, for IPv4 only, it crashes on a short header. A loop that runs out
-- of passes has been given no more of them than the frame has bytes.
inductive Cut {α : Type} (passes : Nat) (built : α → Bytes → Prop) (id : HeaderId)
    (frame : Bytes) : Outcome (Parsed α) → Prop where
  | read {value : α} {header rest : Bytes} (cut : frame = header ++ rest)
      (reads : Reads id header rest) (is : built value header) :
      Cut passes built id frame (.ok (value, follow id header, rest))
  | refuse (message : String) (final : packetFormat.Final id frame)
      (long : id = .ip4 → ¬ ShortIP4 frame) : Cut passes built id frame (.error message)
  | crash (isIP4 : id = .ip4) (short : ShortIP4 frame) : Cut passes built id frame .panic
  | exhaust (few : passes ≤ frame.length) : Cut passes built id frame .diverge

def IPHeader.layer (ip : IPHeader Bytes) : HeaderId × Bytes := (ip.id, ip.bytes)

def Handler.layers : Handler Bytes → List (HeaderId × Bytes)
  | .metadata _ => []
  | .ethernet eth => [(eth.id, eth.header)]
  | .ip _ headers => headers.map IPHeader.layer
  | .tcp header => [(.tcp, header)]
  | .udp header => [(.udp, header)]
  | .arp header => [(.arp, header)]
  | .icmp4 header => [(.icmp4, header)]
  | .icmp6 _ _ header => [(.icmp6, header)]
  | .opaqueData header => [(.opaqueData, header)]

def Handler.Fits : Handler Bytes → Prop
  | .ethernet eth => newEthernet (etherType eth.header) = (eth.toEthernetTags, eth.header.length)
  | handler => handler.Shaped List.length

def IPHeader.Is (id : HeaderId) (ip : IPHeader Bytes) (header : Bytes) : Prop :=
  ip.layer = (id, header) ∧ ip.Shaped List.length

def Handler.Is (id : HeaderId) (handler : Handler Bytes) (header : Bytes) : Prop :=
  handler.layers = [(id, header)] ∧ handler.Fits ∧ handler.group = id.group

theorem Handler.Fits.shaped {handler : Handler Bytes} (fits : handler.Fits) :
    handler.Shaped List.length := by
  cases handler with
  | ethernet eth => exact ⟨_, fits⟩
  | _ => exact fits

section Frames

variable {frame : Bytes} {n : Nat}

theorem slice_take {off size : Nat} (inside : off + n ≤ size) :
    slice (frame.take size) off n = slice frame off n := by
  refine List.ext_getElem? fun i => ?_
  rw [slice_getElem?, slice_getElem?]
  split
  · rw [List.getElem?_take, if_pos (by omega)]
  · rfl

theorem readHeader_short (short : frame.length < n) :
    ∃ message, Frame.readHeader frame n = .error message :=
  ⟨_, if_pos short⟩

theorem readHeader_ok (fits : n ≤ frame.length) :
    Frame.readHeader frame n = .ok (frame.take n, frame.drop n) :=
  if_neg (by omega)

theorem readHeader_all : Frame.readHeader frame frame.length = .ok (frame, []) := by
  rw [readHeader_ok (Nat.le_refl _), List.take_length, List.drop_length]

theorem peek_short {off : Nat} (short : frame.length < off + n) :
    ∃ message, Frame.peek frame off n = .error message :=
  ⟨_, if_pos short⟩

theorem peek_bits {off : Nat} (fits : off + n ≤ frame.length) (numeric : n = 1 ∨ n = 2)
    (bitpos bitcount : Nat) (inside : bitpos + bitcount ≤ n * 8) (positive : 0 < bitcount) :
    ∃ bits, Field.bitField (slice frame off n) bitpos bitcount = .ok bits ∧
      Field.value bits = .ok (octetsValue (slice frame off n) / 2 ^ bitpos % 2 ^ bitcount) := by
  have length : (slice frame off n).length = n := slice_length fits
  refine bitField_value ?_ _ _ (by omega) positive
  rw [Field.Numeric]
  omega

end Frames

theorem newEthernet_next (type : Nat) :
    (newEthernet type).1.next + 2 = (newEthernet type).2 ∧ 14 ≤ (newEthernet type).2 := by
  rw [newEthernet]
  split
  · decide
  · split <;> decide

theorem newEthernet_id (type : Nat) :
    (newEthernet type).1.id = .ethernet ∨ (newEthernet type).1.id = .ethernetVlan ∨
      (newEthernet type).1.id = .ethernet1Q := by
  rw [newEthernet]
  split
  · decide
  · split <;> decide

def headerSize (id : HeaderId) (frame : Bytes) : Nat :=
  match id with
  | .ethernet | .ethernetVlan | .ethernet1Q => (newEthernet (etherType frame)).2
  | .ip4 => 4 * ihl frame
  | .ip6 => 40
  | .gre => 4 + 4 * greFlag frame 5 + 4 * greFlag frame 4
  | .tcp => 4 * dataOffset frame
  | .arp => 28
  | _ => frame.length

section Sizes

variable {header rest : Bytes}

theorem etherType_append (long : 14 ≤ header.length) :
    etherType (header ++ rest) = etherType header := by
  rw [etherType, slice_append long, etherType]

theorem ihl_append (nonempty : 1 ≤ header.length) : ihl (header ++ rest) = ihl header := by
  rw [ihl, slice_append nonempty, ihl]

theorem greFlag_append (nonempty : 1 ≤ header.length) (bit : Nat) :
    greFlag (header ++ rest) bit = greFlag header bit := by
  rw [greFlag, slice_append nonempty, greFlag]

theorem dataOffset_append (long : 14 ≤ header.length) :
    dataOffset (header ++ rest) = dataOffset header := by
  rw [dataOffset, slice_append long, dataOffset]

theorem ethernet_size (size : header.length = (newEthernet (etherType header)).2) :
    header.length = (newEthernet (etherType (header ++ rest))).2 := by
  rw [etherType_append (size ▸ (newEthernet_next _).2)]
  exact size

variable {id : HeaderId}

theorem Reads.size_eq (reads : Reads id header rest) :
    header.length = headerSize id (header ++ rest) := by
  cases id with
  | ethernet | ethernetVlan | ethernet1Q => exact ethernet_size reads.2
  | ip4 =>
    obtain ⟨large, size⟩ := reads
    rw [headerSize, ihl_append (by omega)]
    exact size
  | ip6 => exact reads
  | gre =>
    have size : header.length = 4 + 4 * greFlag header 5 + 4 * greFlag header 4 := reads
    rw [headerSize, greFlag_append (by omega), greFlag_append (by omega)]
    exact size
  | tcp =>
    obtain ⟨large, size⟩ := reads
    rw [headerSize, dataOffset_append (by omega)]
    exact size
  | arp => exact reads
  | udp | icmp4 => simp [headerSize, reads.2]
  | icmp6 => simp [headerSize, reads.2.1]
  | opaqueData =>
    have last : rest = [] := reads
    simp [headerSize, last]
  | _ => exact reads.elim

def minimumSize : HeaderId → Nat
  | .ethernet | .ethernetVlan | .ethernet1Q => 14
  | .ip4 => 12
  | .ip6 => 40
  | .gre => 4
  | .tcp => 20
  | .udp | .icmp4 | .icmp6 => 8
  | .arp => 28
  | _ => 0

theorem Reads.minimum_le (reads : Reads id header rest) :
    minimumSize id ≤ header.length := by
  cases id with
  | ethernet | ethernetVlan | ethernet1Q => exact reads.2 ▸ (newEthernet_next _).2
  | ip4 | tcp =>
    obtain ⟨large, size⟩ := reads
    simp only [minimumSize]
    omega
  | ip6 | arp => exact Nat.le_of_eq (Eq.symm reads)
  | gre =>
    have size : header.length = 4 + 4 * greFlag header 5 + 4 * greFlag header 4 := reads
    simp only [minimumSize]
    omega
  | udp | icmp4 | icmp6 => exact reads.1
  | _ => exact Nat.zero_le _

theorem final_of_small {frame : Bytes}
    (small : frame.length < minimumSize id) : packetFormat.Final id frame := by
  rintro header rest rfl reads
  have size := reads.minimum_le
  rw [List.length_append] at small
  omega

theorem final_of_short {frame : Bytes}
    (short : frame.length < headerSize id frame) : packetFormat.Final id frame := by
  rintro header rest rfl reads
  have size := reads.size_eq
  rw [List.length_append] at short
  omega

end Sizes

section Steps

variable {α : Type} {passes : Nat} {built : α → Bytes → Prop} {id : HeaderId} {frame : Bytes}

theorem Cut.peek {off n : Nat} {text : String} {next : Bytes → Outcome (Parsed α)}
    (needed : off + n ≤ minimumSize id) (first : id = .ip4 → off + n = 1)
    (go : off + n ≤ frame.length → Cut passes built id frame (next (slice frame off n))) :
    Cut passes built id frame ((Frame.peek frame off n).wrap text >>= next) := by
  rcases Nat.lt_or_ge frame.length (off + n) with short | fits
  · obtain ⟨message, refused⟩ := peek_short short
    rw [refused]
    refine .refuse _ (final_of_small (by omega)) fun isIP4 ⟨nonempty, _⟩ => ?_
    have := first isIP4
    omega
  · rw [peek_ok fits]
    exact go fits

theorem Cut.readHeader {n : Nat} {text : String} {next : Bytes × Bytes → Outcome (Parsed α)}
    (size : n = headerSize id frame)
    (go : n ≤ frame.length → Cut passes built id frame (next (frame.take n, frame.drop n))) :
    Cut passes built id frame ((Frame.readHeader frame n).wrap text >>= next) := by
  rcases Nat.lt_or_ge frame.length n with short | fits
  · obtain ⟨message, refused⟩ := readHeader_short short
    rw [refused]
    refine .refuse _ (final_of_short (size ▸ short)) ?_
    rintro rfl ⟨-, -, whole⟩
    exact absurd short (size ▸ Nat.not_lt.mpr whole)
  · rw [readHeader_ok fits]
    exact go fits

theorem Cut.taken {n : Nat} {value : α} (reads : Reads id (frame.take n) (frame.drop n))
    (is : built value (frame.take n)) :
    Cut passes built id frame (.ok (value, follow id (frame.take n), frame.drop n)) :=
  .read (List.take_append_drop n frame).symm reads is

end Steps

section Readers

variable (passes : Nat) (frame : Bytes)

theorem makeIP4_cut : Cut passes (IPHeader.Is .ip4) .ip4 frame (makeIP4 frame) := by
  refine Cut.peek (by decide) (fun _ => rfl) fun nonempty => ?_
  obtain ⟨bits, picked, size⟩ := peek_bits nonempty (by decide) 0 4 (by decide) (by decide)
  have isIhl : octetsValue (slice frame 0 1) / 2 ^ 0 % 2 ^ 4 = ihl frame := by
    rw [pow_zero, Nat.div_one]
    rfl
  rw [isIhl] at size
  simp only [picked, size, Outcome.ok_bind, Nat.mul_comm (ihl frame)]
  refine Cut.readHeader rfl fun fits => ?_
  dsimp only
  have length : (frame.take (4 * ihl frame)).length = 4 * ihl frame := by
    rw [List.length_take]
    omega
  rcases Nat.lt_or_ge (ihl frame) 3 with short | large
  · rw [field_outside (by omega)]
    exact .crash rfl ⟨nonempty, short, fits⟩
  · have same : ihl (frame.take (4 * ihl frame)) = ihl frame := by
      rw [ihl, slice_take (by omega), ihl]
    rw [value_field (by omega) (by decide)]
    refine Cut.taken ⟨?_, ?_⟩ ⟨rfl, ?_⟩
    · rw [same]
      exact large
    · rw [same]
      exact length
    · rw [IPHeader.Shaped, length]
      exact ⟨by omega, by omega⟩

theorem makeIP6_cut : Cut passes (IPHeader.Is .ip6) .ip6 frame (makeIP6 frame) := by
  refine Cut.readHeader rfl fun fits => ?_
  dsimp only
  have length : (frame.take 40).length = 40 := by
    rw [List.length_take]
    omega
  rw [value_field (by omega) (by decide)]
  exact Cut.taken length ⟨rfl, length⟩

theorem optional_eq {size : Nat} {present : Bool} {name : String}
    (fits : present = true → size ≤ frame.length) :
    optional frame size present name =
      .ok (frame.take (if present then size else 0), frame.drop (if present then size else 0)) := by
  cases present with
  | false => rfl
  | true =>
    have fits := fits rfl
    have length : (frame.take size).length = size := by
      rw [List.length_take]
      omega
    simp only [optional, Bool.not_true, Bool.false_eq_true, if_false, if_true, readHeader_ok fits,
      Outcome.wrap_ok, Outcome.ok_bind, Outcome.pure_eq]
    rw [field_inside (by omega), slice, List.drop_zero, List.take_take, Nat.min_self]

theorem Cut.optional {α : Type} {built : α → Bytes → Prop} {whole : Bytes} {size : Nat}
    {present : Bool} {name : String} {next : Bytes × Bytes → Outcome (Parsed α)}
    (needed : whole.length < headerSize .gre whole ∨ (present = true → size ≤ frame.length))
    (go : (present = true → size ≤ frame.length) → Cut passes built .gre whole
      (next (frame.take (if present then size else 0), frame.drop (if present then size else 0)))) :
    Cut passes built .gre whole (optional frame size present name >>= next) := by
  by_cases fits : present = true → size ≤ frame.length
  · rw [optional_eq frame fits]
    exact go fits
  · obtain ⟨set, short⟩ := Classical.not_imp.mp fits
    obtain ⟨message, refused⟩ := readHeader_short (Nat.lt_of_not_le short)
    have failed : ∃ message, Protocol.optional frame size present name = .error message := by
      rw [Protocol.optional, set, refused]
      exact ⟨_, rfl⟩
    obtain ⟨message, failed⟩ := failed
    rw [failed]
    exact .refuse _ (final_of_short (needed.resolve_right fits)) nofun

theorem flagSize (bit : Nat) :
    (if greFlag frame bit == 1 then 4 else 0) = 4 * greFlag frame bit := by
  have bound : greFlag frame bit < 2 := Nat.mod_lt _ (by decide)
  split
  case isTrue set =>
    rw [beq_iff_eq] at set
    omega
  case isFalse clear =>
    rw [beq_iff_eq] at clear
    omega

theorem makeGRE_cut : Cut passes (IPHeader.Is .gre) .gre frame (makeGRE frame) := by
  refine Cut.peek (by decide) nofun fun nonempty => ?_
  obtain ⟨keyBit, pickedKey, keyValue⟩ :=
    peek_bits nonempty (by decide) 5 1 (by decide) (by decide)
  obtain ⟨seqBit, pickedSeq, seqValue⟩ :=
    peek_bits nonempty (by decide) 4 1 (by decide) (by decide)
  have isKey : octetsValue (slice frame 0 1) / 2 ^ 5 % 2 ^ 1 = greFlag frame 5 := rfl
  have isSeq : octetsValue (slice frame 0 1) / 2 ^ 4 % 2 ^ 1 = greFlag frame 4 := rfl
  rw [isKey] at keyValue
  rw [isSeq] at seqValue
  simp only [pickedKey, keyValue, pickedSeq, seqValue, Outcome.ok_bind]
  have size : headerSize .gre frame = 4 + 4 * greFlag frame 5 + 4 * greFlag frame 4 := rfl
  have keySize : (if greFlag frame 5 == 1 then 4 else 0) = 4 * greFlag frame 5 := flagSize _ _
  have seqSize : (if greFlag frame 4 == 1 then 4 else 0) = 4 * greFlag frame 4 := flagSize _ _
  rcases Nat.lt_or_ge frame.length 4 with short | long
  · obtain ⟨message, refused⟩ := readHeader_short short
    rw [refused]
    exact .refuse _ (final_of_small short) nofun
  rw [readHeader_ok long]
  refine Cut.optional _ _ ?_ fun keyFits => ?_
  · rw [size, List.length_drop]
    simp only [beq_iff_eq]
    omega
  rw [keySize]
  refine Cut.optional _ _ ?_ fun seqFits => ?_
  · rw [size, List.length_drop, List.length_drop]
    simp only [beq_iff_eq]
    omega
  rw [seqSize]
  have fits : 4 + 4 * greFlag frame 5 + 4 * greFlag frame 4 ≤ frame.length := by
    rw [beq_iff_eq, List.length_drop] at keyFits seqFits
    rw [List.length_drop] at seqFits
    omega
  have length : (frame.take 4).length = 4 := by
    rw [List.length_take]
    omega
  dsimp only
  rw [value_field (by omega) (by decide), List.drop_drop, List.drop_drop, slice_take (by decide)]
  generalize total : 4 + 4 * greFlag frame 5 + 4 * greFlag frame 4 = n at *
  have isNext : slice frame 2 2 = slice (frame.take n) 2 2 := (slice_take (by omega)).symm
  have isFirst : slice (frame.take n) 0 1 = slice frame 0 1 := slice_take (by omega)
  have pieces : frame.take 4 ++ (frame.drop 4).take (4 * greFlag frame 5) ++
      (frame.drop (4 + 4 * greFlag frame 5)).take (4 * greFlag frame 4) = frame.take n := by
    rw [← total, List.take_add, List.take_add]
  rw [isNext]
  refine Cut.taken ?_ ⟨?_, length, ?_, ?_⟩
  · rw [Reads, greFlag, greFlag, isFirst, List.length_take, Nat.min_eq_left fits]
    exact total.symm
  · exact Prod.ext rfl pieces
  · rw [List.length_take, List.length_drop]
    omega
  · rw [List.length_take, List.length_drop]
    omega

theorem parseEthernet_cut :
    Cut passes (Handler.Is (resolve .ethernet frame)) (resolve .ethernet frame) frame
      (parseEthernet frame) := by
  have isEthernet := newEthernet_id (etherType frame)
  obtain ⟨nextEnd, long⟩ := newEthernet_next (etherType frame)
  cases made : newEthernet (etherType frame) with
  | mk eth size =>
    have isId : resolve .ethernet frame = eth.id := by rw [resolve, made]
    rw [made] at isEthernet nextEnd long
    dsimp only at nextEnd
    rw [isId]
    have unfolded : minimumSize eth.id = 14 ∧ headerSize eth.id frame = size ∧
        (∀ header rest, Reads eth.id header rest ↔ (newEthernet (etherType header)).1.id = eth.id ∧
          header.length = (newEthernet (etherType header)).2) ∧
        ∀ header, follow eth.id header = (nextHeader.lookup (octetsValue
          (slice header (newEthernet (etherType header)).1.next 2))).getD .opaqueData := by
      rcases isEthernet with is | is | is <;> rw [is, headerSize, made] <;>
        exact ⟨rfl, rfl, fun _ _ => Iff.rfl, fun _ => rfl⟩
    obtain ⟨minimum, isSize, isReads, isFollow⟩ := unfolded
    refine Cut.peek (by omega) (fun isIP4 => ?_) fun fits => ?_
    · rw [isIP4] at isEthernet
      exact absurd isEthernet (by decide)
    rw [value_ok (Or.inr (Or.inl (slice_length fits)))]
    have isType : octetsValue (slice frame 12 2) = etherType frame := rfl
    simp only [Outcome.ok_bind, isType, made]
    refine Cut.readHeader isSize.symm fun fits => ?_
    dsimp only
    have length : (frame.take size).length = size := by
      rw [List.length_take]
      omega
    have sameType : etherType (frame.take size) = etherType frame := by
      rw [etherType, slice_take (by omega), etherType]
    rw [value_field (by omega) (by decide)]
    have follows := isFollow (frame.take size)
    rw [sameType, made] at follows
    rw [Outcome.ok_bind, ← follows]
    refine Cut.taken ((isReads _ _).mpr ?_) ⟨rfl, ?_, ?_⟩
    · rw [sameType, made]
      exact ⟨rfl, length⟩
    · rw [Handler.Fits, sameType, made, length]
    · rcases isEthernet with is | is | is <;> rw [is] <;> rfl

theorem parseTCP_cut : Cut passes (Handler.Is .tcp) .tcp frame (parseTCP frame) := by
  refine Cut.peek (by decide) nofun fun fits => ?_
  obtain ⟨bits, picked, size⟩ := peek_bits fits (by decide) 12 4 (by decide) (by decide)
  have isOffset : octetsValue (slice frame 12 2) / 2 ^ 12 % 2 ^ 4 = dataOffset frame := by
    have bound := octetsValue_lt (slice frame 12 2)
    rw [slice_length fits] at bound
    rw [dataOffset]
    omega
  rw [isOffset] at size
  simp only [picked, size, Outcome.ok_bind]
  split
  case isTrue small =>
    refine .refuse _ ?_ nofun
    rintro header rest rfl ⟨large, size⟩
    rw [dataOffset_append (by omega)] at small
    omega
  case isFalse large =>
    refine Cut.readHeader rfl fun fits => ?_
    have length : (frame.take (4 * dataOffset frame)).length = 4 * dataOffset frame := by
      rw [List.length_take]
      omega
    have same : dataOffset (frame.take (4 * dataOffset frame)) = dataOffset frame := by
      rw [dataOffset, slice_take (by omega), dataOffset]
    refine Cut.taken ⟨?_, ?_⟩ ⟨rfl, ?_, rfl⟩
    · rw [same]
      omega
    · rw [same]
      exact length
    · have enough : 20 ≤ (frame.take (4 * dataOffset frame)).length := by omega
      exact enough

theorem Cut.all {α : Type} {built : α → Bytes → Prop} {id : HeaderId} {value : α}
    (reads : Reads id frame []) (is : built value frame) :
    Cut passes built id frame (.ok (value, follow id frame, [])) :=
  .read (List.append_nil frame).symm reads is

theorem parseUDP_cut : Cut passes (Handler.Is .udp) .udp frame (parseUDP frame) := by
  rw [parseUDP]
  split
  case isTrue small => exact .refuse _ (final_of_small small) nofun
  case isFalse long =>
    rw [readHeader_all]
    exact Cut.all _ _ ⟨Nat.le_of_not_lt long, rfl⟩ ⟨rfl, Nat.le_of_not_lt long, rfl⟩

theorem parseARP_cut : Cut passes (Handler.Is .arp) .arp frame (parseARP frame) := by
  rw [parseARP]
  split
  case isTrue small => exact .refuse _ (final_of_small small) nofun
  case isFalse long =>
    refine Cut.readHeader rfl fun fits => ?_
    have length : (frame.take 28).length = 28 := by
      rw [List.length_take]
      omega
    exact Cut.taken length ⟨rfl, length, rfl⟩

theorem parseICMP4_cut : Cut passes (Handler.Is .icmp4) .icmp4 frame (parseICMP4 frame) := by
  rw [parseICMP4]
  split
  case isTrue small => exact .refuse _ (final_of_small small) nofun
  case isFalse long =>
    rw [readHeader_all]
    exact Cut.all _ _ ⟨Nat.le_of_not_lt long, rfl⟩ ⟨rfl, Nat.le_of_not_lt long, rfl⟩

theorem parseOpaque_cut :
    Cut passes (Handler.Is .opaqueData) .opaqueData frame (parseOpaque frame) := by
  rw [parseOpaque, readHeader_all]
  exact Cut.all _ _ rfl ⟨rfl, trivial, rfl⟩

end Readers

section Options

variable {header : Bytes}

theorem field_one (off : Nat) : Header.field header off 1 = (header.drop off).take 1 := by
  rw [Header.field]
  split
  · rw [List.drop_eq_nil_of_le (by omega)]
    rfl
  · rfl

theorem value_one (byte : UInt8) : Field.value [byte] = .ok byte.toNat := by
  rw [value_ok (Or.inl rfl), octetsValue]
  simp

-- The offsets at which an option of a message of type `id` is read.
inductive Reached (header : Bytes) (id : Nat) : Nat → Prop where
  | first {off : Nat} (isStart : optionOffset.lookup id = some off) : Reached header id off
  | next {off : Nat} {type length : UInt8} {tail : Bytes} (before : Reached header id off)
      (here : header.drop off = type :: length :: tail) (nonzero : length ≠ 0) :
      Reached header id (off + 8 * length.toNat)

-- The place comes right after the type and the length of an option that is read.
def ValueOf (header : Bytes) (id : Nat) (type : UInt8) (place : Nat × Nat) : Prop :=
  ∃ off length tail, Reached header id off ∧ header.drop off = type :: length :: tail ∧
    place = (2 + off, 8 * length.toNat - 2)

structure NDOptions.Found (header : Bytes) (id : Nat) (options : NDOptions) : Prop where
  sll : ∀ place, options.sll = some place → ValueOf header id 1 place
  tll : ∀ place, options.tll = some place → ValueOf header id 2 place

theorem Reached.list {id off : Nat} (reached : Reached header id off)
    (list : ∀ off, optionOffset.lookup id = some off → NDList (header.drop off)) :
    NDList (header.drop off) := by
  induction reached with
  | first isStart => exact list _ isStart
  | next _ here _ ih =>
    rw [here] at ih
    cases ih with
    | option _ _ _ _ more => rwa [← here, List.drop_drop] at more

theorem optionLoop_step {off : Nat} {type length : UInt8} {tail : Bytes}
    (here : header.drop off = type :: length :: tail) (nonzero : length ≠ 0) (fuel id : Nat)
    (options : NDOptions) :
    ∃ more, optionLoop header (fuel + 1) off options =
        optionLoop header fuel (off + 8 * length.toNat) more ∧
      (Reached header id off → options.Found header id → more.Found header id) := by
  have isLength : Header.field header (1 + off) 1 = [length] := by
    rw [field_one, Nat.add_comm, ← List.drop_drop, here]
    rfl
  have positive : ¬ 8 * length.toNat < 2 := by
    have : length.toNat ≠ 0 := fun zero => nonzero (UInt8.toNat_inj.mp zero)
    omega
  rw [optionLoop, field_one, here, isLength]
  simp only [List.take_succ_cons, List.take_zero, reduceCtorEq, if_false, value_one,
    Outcome.ok_bind, if_neg positive]
  refine ⟨_, rfl, fun reached found => ?_⟩
  have own : ∀ place, some (2 + off, 8 * length.toNat - 2) = some place →
      ValueOf header id type place := by
    rintro place ⟨⟩
    exact ⟨off, length, tail, reached, here, rfl⟩
  split
  · next isSLL =>
    obtain rfl : type = 1 := UInt8.toNat_inj.mp isSLL
    exact ⟨own, found.tll⟩
  split
  · next isTLL =>
    obtain rfl : type = 2 := UInt8.toNat_inj.mp isTLL
    exact ⟨found.sll, own⟩
  · exact found

theorem optionLoop_cases (id fuel : Nat) : ∀ (off : Nat) (options : NDOptions),
    (∃ result, optionLoop header fuel off options = .ok result ∧ NDList (header.drop off) ∧
      (Reached header id off → options.Found header id → result.Found header id)) ∨
    (∃ message, optionLoop header fuel off options = .error message ∧
      ¬ NDList (header.drop off)) ∨
    optionLoop header fuel off options = .diverge ∧ fuel ≤ (header.drop off).length := by
  induction fuel with
  | zero => exact fun off options => Or.inr (Or.inr ⟨rfl, Nat.zero_le _⟩)
  | succ fuel ih =>
    intro off options
    rcases here : header.drop off with _ | ⟨type, _ | ⟨length, tail⟩⟩
    · refine Or.inl ⟨options, ?_, .done, fun _ found => found⟩
      rw [optionLoop, field_one, here]
      rfl
    · refine Or.inr (Or.inl ?_)
      have noLength : Header.field header (1 + off) 1 = [] := by
        rw [field_one, Nat.add_comm, ← List.drop_drop, here]
        rfl
      rw [optionLoop, field_one, here, noLength]
      simp only [List.take_succ_cons, List.take_zero, reduceCtorEq, if_false, value_one,
        Outcome.ok_bind, if_true]
      exact ⟨_, rfl, nofun⟩
    · by_cases zero : length = 0
      · refine Or.inr (Or.inl ?_)
        have isLength : Header.field header (1 + off) 1 = [0] := by
          rw [field_one, Nat.add_comm, ← List.drop_drop, here, zero]
          rfl
        rw [optionLoop, field_one, here, isLength]
        simp only [List.take_succ_cons, List.take_zero, reduceCtorEq, if_false, value_one,
          Outcome.ok_bind]
        refine ⟨_, rfl, fun list => ?_⟩
        cases list with
        | option _ _ _ nonzero => exact nonzero zero
      · obtain ⟨more, step, keeps⟩ := optionLoop_step here zero fuel id options
        have below : header.drop (off + 8 * length.toNat) =
            (type :: length :: tail).drop (8 * length.toNat) := by
          rw [← List.drop_drop, here]
        rw [step]
        rcases ih (off + 8 * length.toNat) more with
          ⟨result, isOk, list, onward⟩ | ⟨message, isError, noList⟩ | ⟨diverges, few⟩
        · refine Or.inl ⟨result, isOk, .option type length tail zero (below ▸ list), fun reached found => ?_⟩
          exact onward (reached.next here zero) (keeps reached found)
        · refine Or.inr (Or.inl ⟨message, isError, fun list => noList ?_⟩)
          rw [below]
          cases list with
          | option _ _ _ _ onward => exact onward
        · refine Or.inr (Or.inr ⟨diverges, ?_⟩)
          rw [below, List.length_drop] at few
          have positive : length.toNat ≠ 0 := fun isZero => zero (UInt8.toNat_inj.mp isZero)
          simp only [List.length_cons] at few ⊢
          omega

theorem parseOptions_cases (fuel id : Nat) :
    (∃ result, parseOptions fuel id header = .ok result ∧
      (∀ off, optionOffset.lookup id = some off → NDList (header.drop off)) ∧
      result.Found header id) ∨
    (∃ message, parseOptions fuel id header = .error message ∧
      ¬ ∀ off, optionOffset.lookup id = some off → NDList (header.drop off)) ∨
    parseOptions fuel id header = .diverge ∧ fuel ≤ header.length := by
  rw [parseOptions]
  cases isStart : optionOffset.lookup id with
  | none => exact Or.inl ⟨_, rfl, nofun, nofun, nofun⟩
  | some off =>
    rcases optionLoop_cases id fuel off {} with
      ⟨result, isOk, list, found⟩ | ⟨message, isError, noList⟩ | ⟨diverges, few⟩
    · exact Or.inl ⟨result, isOk, fun _ same => Option.some.inj same ▸ list,
        found (.first isStart) ⟨nofun, nofun⟩⟩
    · exact Or.inr (Or.inl ⟨message, isError, fun all => noList (all off rfl)⟩)
    · refine Or.inr (Or.inr ⟨diverges, few.trans ?_⟩)
      rw [List.length_drop]
      omega

-- The value of an option is nil or lies in the message, right after its type and its length.
def Lies (header : Bytes) (id : Nat) (type : UInt8) (place : Nat × Nat) : Prop :=
  ValueOf header id type place ∧ (Header.field header place.1 place.2 = [] ∨
    place.1 + place.2 ≤ header.length ∧ Header.field header place.1 place.2 = slice header place.1 place.2)

theorem ValueOf.lies {id : Nat} {type : UInt8} {place : Nat × Nat}
    (value : ValueOf header id type place) : Lies header id type place := by
  refine ⟨value, ?_⟩
  rw [Header.field]
  split
  · exact Or.inl rfl
  · next inside => exact Or.inr ⟨Nat.le_of_not_lt inside, rfl⟩

theorem parseOptions_reads (header : Bytes) (id fuel : Nat) :
    (parseOptions (header.length + 1 + fuel) id header).Returns ∧
    (∀ off type, Reached header id off →
      (header.drop off = [type] ∨ ∃ tail, header.drop off = type :: 0 :: tail) →
      ∃ message, parseOptions (header.length + 1 + fuel) id header = .error message) ∧
    (parseOptions (header.length + 1 + fuel) id header).Whenever fun options =>
      (∀ place, options.sll = some place → Lies header id 1 place) ∧
      ∀ place, options.tll = some place → Lies header id 2 place := by
  rcases @parseOptions_cases header (header.length + 1 + fuel) id with
    ⟨result, isOk, list, found⟩ | ⟨message, isError, -⟩ | ⟨-, few⟩
  · rw [isOk]
    refine ⟨.ok result, fun off type reached bad => ?_, .pure ⟨fun place isPlace => ?_, fun place isPlace => ?_⟩⟩
    · have here := reached.list list
      rcases bad with short | ⟨tail, zero⟩
      · rw [short] at here
        cases here
      · rw [zero] at here
        cases here with
        | option _ _ _ nonzero => exact absurd rfl nonzero
    · exact (found.sll place isPlace).lies
    · exact (found.tll place isPlace).lies
  · rw [isError]
    exact ⟨.error message, fun _ _ _ _ => ⟨message, rfl⟩, by rintro _ ⟨⟩⟩
  · omega

theorem parseICMP6_cut (fuel : Nat) (frame : Bytes) :
    Cut fuel (Handler.Is .icmp6) .icmp6 frame (parseICMP6 fuel frame) := by
  rw [parseICMP6]
  split
  case isTrue small => exact .refuse _ (final_of_small small) nofun
  case isFalse long =>
    rw [readHeader_all]
    simp only [Outcome.wrap_ok, Outcome.ok_bind]
    rw [value_field (by omega) (by decide), Outcome.ok_bind]
    rcases parseOptions_cases fuel (octetsValue (slice frame 0 1)) with
      ⟨result, isOk, list, -⟩ | ⟨message, isError, noList⟩ | ⟨diverges, few⟩
    · rw [isOk]
      exact Cut.all _ _ ⟨Nat.le_of_not_lt long, rfl, list⟩
        ⟨rfl, Nat.le_of_not_lt long, rfl⟩
    · rw [isError]
      refine .refuse _ ?_ nofun
      rintro header rest rfl ⟨-, rfl, list⟩
      rw [List.append_nil] at noList
      exact noList list
    · rw [diverges]
      exact .exhaust few

end Options

end Lemming.Protocol
