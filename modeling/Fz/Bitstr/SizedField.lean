import Fz.Bitstr.RoundTrip

/-!
# Fields whose size is a value

A bitstring pattern takes the size of a field from a literal, from a field it has read before, or
from a pin.  The value is a 64-bit integer; the reader gets its low half, multiplies it with the
unit in 32 bits, and has room for sixteen bits of the unit.  So the number of bits it looks for is
not always the product of the two (`wrappedBits`), and a field is read as its size says exactly
where the two agree or where both are out of reach (`size_honoured_iff`).

Float fields and UTF fields are never read: the runtime stops at them.
-/

namespace Fz.Bitstr

open Fz.Base Fz.Terms

inductive BitstringFieldKind where
  | integer
  | float
  | binary
  | bits
  | utf8
  | utf16
  | utf32
  deriving DecidableEq

inductive BitstringFieldSize where
  | literal (n : BitVec 32)
  | binding (subject : Nat)
  | pinned (pin : Nat)

structure BitstringFieldShape where
  kind : BitstringFieldKind
  size : Option BitstringFieldSize
  endian : Endian
  signed : Bool
  unit : Option (BitVec 32)

def dispatchBitTypeTag : BitstringFieldKind → BitVec 32
  | .integer => 0
  | .float => 1
  | .binary => 2
  | .bits => 3
  | .utf8 => 4
  | .utf16 => 5
  | .utf32 => 6

def defaultDispatchBitUnit : BitstringFieldKind → BitVec 32
  | .integer | .float | .bits => 1
  | .binary => 8
  | .utf8 | .utf16 | .utf32 => 1

/-- The integers that the subjects and the pins of a run are bound to. -/
structure BoundIntegers where
  subject : Nat → Option (BitVec 64)
  pin : Nat → Option (BitVec 64)

/-- How wide a field is, and whether it says so at all. -/
def bitSizeValue (bound : BoundIntegers) :
    Option BitstringFieldSize → Option (BitVec 32 × BitVec 32)
  | none => some (0, 0)
  | some (.literal n) => some (1, n)
  | some (.binding subject) => (bound.subject subject).map fun n => (1, n.setWidth 32)
  | some (.pinned pin) => (bound.pin pin).map fun n => (1, n.setWidth 32)

/-- How the reading of a field ends: in the failure tuple, in a panic, or with a value and the
reader behind it. -/
inductive FieldRead where
  | fail
  | abort
  | read (value : FieldValue) (reader : Reader)

section Host

variable (hostIsLittleEndian : Bool)

/-- `fz_bs_read_field_ref` for the fields of all kinds. -/
def fzBsReadFieldRef (r : Reader) (fieldSpec : BitVec 64) (sizeValue : BitVec 32) : FieldRead :=
  let spec := decodeBsFieldSpec fieldSpec
  if spec.tyTag = 1 then
    let size := if spec.sizePresent ≠ 0 then some sizeValue else none
    let total := size.getD 64 * spec.unit
    if total ≠ 32 ∧ total ≠ 64 then .fail else .abort
  else if spec.tyTag = 4 ∨ spec.tyTag = 5 ∨ spec.tyTag = 6 then .abort
  else
    match readFieldRef hostIsLittleEndian r fieldSpec sizeValue with
    | none => .fail
    | some (value, r) => .read value r

/-- One round of the loop over the fields of a pattern. -/
def readBitstringField (bound : BoundIntegers) (r : Reader) (field : BitstringFieldShape)
    (isLast : Bool) : FieldRead :=
  match bitSizeValue bound field.size with
  | none => .fail
  | some (sizePresent, sizeValue) =>
    let fieldSpec := fzBsFieldSpec (dispatchBitTypeTag field.kind) sizePresent
      (field.unit.getD (defaultDispatchBitUnit field.kind)) field.endian.tag (flag field.signed)
      (flag isLast)
    fzBsReadFieldRef hostIsLittleEndian r fieldSpec sizeValue

end Host

/-! ## Sizes -/

/-- The size as the program has it. -/
def BoundIntegers.sizeOf (bound : BoundIntegers) : BitstringFieldSize → Option Int
  | .literal n => some n.toNat
  | .binding subject => (bound.subject subject).map BitVec.toInt
  | .pinned pin => (bound.pin pin).map BitVec.toInt

/-- The unit of a field, as it is written or by default. -/
def BitstringFieldShape.unitBits (field : BitstringFieldShape) : Nat :=
  (field.unit.getD (defaultDispatchBitUnit field.kind)).toNat

/-- The number of bits the reader looks for. -/
def wrappedBits (size : Int) (unit : Nat) : Nat := (size % 2 ^ 32).toNat * (unit % 2 ^ 16) % 2 ^ 32

/-- The fields that the runtime can read. -/
def BitstringFieldKind.Readable (kind : BitstringFieldKind) : Prop :=
  kind = .integer ∨ kind = .binary ∨ kind = .bits

instance (kind : BitstringFieldKind) : Decidable kind.Readable :=
  inferInstanceAs (Decidable (_ ∨ _))

/-- A number of bits that is left, and no more than an integer field can have. -/
def InReach (kind : BitstringFieldKind) (remaining : Nat) (bits : Int) : Prop :=
  0 ≤ bits ∧ bits ≤ remaining ∧ (kind = .integer → bits ≤ 64)

theorem bitSizeValue_some {bound : BoundIntegers} {size : BitstringFieldSize} {n : Int}
    (h : bound.sizeOf size = some n) :
    ∃ sizeValue, bitSizeValue bound (some size) = some (1, sizeValue) ∧
      sizeValue.toNat = (n % 2 ^ 32).toNat := by
  have hlow : ∀ x : BitVec 64, (x.setWidth 32).toNat = (x.toInt % 2 ^ 32).toNat := by
    intro x
    rw [toInt_emod_two_pow x (by decide), BitVec.toNat_setWidth, Int.toNat_natCast]
  cases size with
  | literal m =>
    obtain rfl := Option.some.inj h
    refine ⟨m, rfl, ?_⟩
    have hm := m.isLt
    omega
  | binding subject =>
    obtain ⟨x, hx, rfl⟩ := Option.map_eq_some_iff.mp h
    refine ⟨x.setWidth 32, ?_, hlow x⟩
    rw [bitSizeValue, hx]
    rfl
  | pinned pin =>
    obtain ⟨x, hx, rfl⟩ := Option.map_eq_some_iff.mp h
    refine ⟨x.setWidth 32, ?_, hlow x⟩
    rw [bitSizeValue, hx]
    rfl

/-! ## Reading -/

section Host

variable (hostIsLittleEndian : Bool)

theorem exists_readBits {r : BitReader} {bits : List Bool} (h : r.Sees bits) {n : Nat}
    (hn : n ≤ bits.length) : ∃ x, r.readBits n = some x := by
  rw [← List.take_append_drop n bits] at h
  obtain ⟨hloop, -⟩ := h.readLoop _ 0
  rw [List.length_take, Nat.min_eq_left hn] at hloop
  have hpos := h.pos_le
  rw [List.take_append_drop] at hpos
  rw [BitReader.readBits, BitReader.remaining, if_neg (by omega)]
  exact ⟨_, hloop⟩

section Sized

variable {r : Reader} {rest : List Bool} {ty : BitType} {size unit : BitVec 32} {endian : Endian}
  {signed isLast : Bool}

theorem readFieldBits_reads (hr : r.At rest) (hroom : r.pos + (size * unit).toNat ≤ r.bitLen)
    (hwide : ty = .integer → (size * unit).toNat ≤ 64) :
    ∃ value, readFieldBits hostIsLittleEndian r ty (some size) unit endian signed isLast =
      some (value, { r with pos := r.pos + (size * unit).toNat }) := by
  have hpos := hr.pos_le
  have hbinary : ∃ value, (if r.pos + (size * unit).toNat > r.bitLen then none
      else (readBinary r (size * unit).toNat).bind fun b => some (FieldValue.bitstring b,
        ({ r with pos := r.pos + (size * unit).toNat } : Reader))) =
      some (value, { r with pos := r.pos + (size * unit).toNat }) := by
    rw [if_neg (by omega)]
    have hsplit := hr
    rw [← List.take_append_drop (size * unit).toNat rest] at hsplit
    obtain ⟨b, hread, -⟩ := hsplit.readBinary
    rw [List.length_take, Nat.min_eq_left (by omega)] at hread
    exact ⟨.bitstring b, by rw [hread]; rfl⟩
  cases ty with
  | integer =>
    obtain ⟨x, hx⟩ := exists_readBits hr.sees (show (size * unit).toNat ≤ rest.length by omega)
    have hle := hwide rfl
    rw [readFieldBits]
    dsimp only
    rw [Option.getD_some, if_neg (by omega), hx]
    exact ⟨_, rfl⟩
  | binary => exact hbinary
  | bits => exact hbinary

theorem readFieldBits_fails (hr : r.At rest) (h : ¬(r.pos + (size * unit).toNat ≤ r.bitLen ∧
      (ty = .integer → (size * unit).toNat ≤ 64))) :
    readFieldBits hostIsLittleEndian r ty (some size) unit endian signed isLast = none := by
  have hbinary (hroom : ¬r.pos + (size * unit).toNat ≤ r.bitLen) :
      (if r.pos + (size * unit).toNat > r.bitLen then none
        else (readBinary r (size * unit).toNat).bind fun b => some (FieldValue.bitstring b,
          ({ r with pos := r.pos + (size * unit).toNat } : Reader))) = none :=
    if_pos (by omega)
  cases ty with
  | integer =>
    rw [readFieldBits]
    dsimp only
    rw [Option.getD_some]
    split
    · rfl
    · next hwide =>
      have hroom : ¬r.pos + (size * unit).toNat ≤ r.bitLen := by
        intro hroom
        exact h ⟨hroom, fun _ => by omega⟩
      have hpos := hr.pos_le
      have hshort : (BitReader.mk (r.bs.payload.bytes.take ((r.bitLen + 7) / 8)) r.bitLen
          r.pos).remaining < (size * unit).toNat := by
        show r.bitLen - r.pos < _
        omega
      rw [BitReader.readBits, if_pos hshort]
      rfl
  | binary => exact hbinary fun hroom => h ⟨hroom, fun hty => by cases hty⟩
  | bits => exact hbinary fun hroom => h ⟨hroom, fun hty => by cases hty⟩

end Sized

/-! ## Fields of a pattern -/

variable {bound : BoundIntegers} {r : Reader} {field : BitstringFieldShape}
  {size : BitstringFieldSize} {n : Int}

/-- The type a readable field is read as. -/
def BitstringFieldKind.bitType : BitstringFieldKind → BitType
  | .binary => .binary
  | .bits => .bits
  | _ => .integer

theorem dispatchBitTypeTag_packed (kind : BitstringFieldKind) :
    BitVec.ofNat 32 ((dispatchBitTypeTag kind).toNat % 2 ^ 3) = dispatchBitTypeTag kind := by
  cases kind <;> rfl

theorem endianTag_packed (endian : Endian) :
    BitVec.ofNat 32 (endian.tag.toNat % 2 ^ 2) = endian.tag := by
  cases endian <;> rfl

theorem readBitstringField_readable (hkind : field.kind.Readable) (hsize : field.size = some size)
    (hn : bound.sizeOf size = some n) (isLast : Bool) :
    ∃ sizeBits unit : BitVec 32, (sizeBits * unit).toNat = wrappedBits n field.unitBits ∧
      readBitstringField hostIsLittleEndian bound r field isLast =
        match readFieldBits hostIsLittleEndian r field.kind.bitType (some sizeBits) unit
            field.endian field.signed isLast with
        | none => .fail
        | some (value, r) => .read value r := by
  obtain ⟨sizeValue, hvalue, hlow⟩ := bitSizeValue_some hn
  refine ⟨sizeValue, BitVec.ofNat 32 (field.unitBits % 2 ^ 16), ?_, ?_⟩
  · rw [BitVec.toNat_mul, BitVec.toNat_ofNat, hlow, wrappedBits,
      Nat.mod_eq_of_lt (show field.unitBits % 2 ^ 16 < 2 ^ 32 by omega)]
  · have hendian : decodeEndian field.endian.tag = some field.endian := by
      cases field.endian <;> rfl
    have htype : decodeBitType (dispatchBitTypeTag field.kind) = some field.kind.bitType ∧
        dispatchBitTypeTag field.kind ≠ 1 ∧ ¬(dispatchBitTypeTag field.kind = 4 ∨
          dispatchBitTypeTag field.kind = 5 ∨ dispatchBitTypeTag field.kind = 6) := by
      rcases hkind with hk | hk | hk <;> rw [hk] <;> decide
    have hpresent : (if flag ((1 : BitVec 32) != 0) ≠ 0 then some sizeValue else none) =
        some sizeValue := rfl
    rw [readBitstringField, hsize, hvalue]
    dsimp only
    rw [fzBsReadFieldRef, readFieldRef, decode_fzBsFieldSpec, flag_ne_zero, flag_ne_zero,
      dispatchBitTypeTag_packed, endianTag_packed]
    dsimp only
    rw [if_neg htype.2.1, if_neg htype.2.2, htype.1, hendian, hpresent, flag_ne_zero, flag_ne_zero]
    rfl

theorem readBitstringField_unreadable (hkind : ¬field.kind.Readable) (isLast : Bool)
    (value : FieldValue) (next : Reader) :
    readBitstringField hostIsLittleEndian bound r field isLast ≠ .read value next := by
  intro hread
  have hfails : ∀ (p : Prop) [Decidable p],
      (if p then FieldRead.fail else .abort) ≠ .read value next := by
    intro p _
    split <;> exact fun h => nomatch h
  rw [readBitstringField] at hread
  split at hread
  · exact nomatch hread
  · dsimp only at hread
    rw [fzBsReadFieldRef, decode_fzBsFieldSpec, dispatchBitTypeTag_packed] at hread
    dsimp only at hread
    have htag : dispatchBitTypeTag field.kind = 1 ∨ dispatchBitTypeTag field.kind = 4 ∨
        dispatchBitTypeTag field.kind = 5 ∨ dispatchBitTypeTag field.kind = 6 := by
      cases hk : field.kind with
      | integer => exact absurd (.inl hk) hkind
      | binary => exact absurd (.inr (.inl hk)) hkind
      | bits => exact absurd (.inr (.inr hk)) hkind
      | float => exact .inl rfl
      | utf8 => exact .inr (.inl rfl)
      | utf16 => exact .inr (.inr (.inl rfl))
      | utf32 => exact .inr (.inr (.inr rfl))
    rcases htag with hfloat | hutf
    · rw [if_pos hfloat] at hread
      exact hfails _ hread
    · by_cases hfloat : dispatchBitTypeTag field.kind = 1
      · rw [if_pos hfloat] at hread
        exact hfails _ hread
      · rw [if_neg hfloat, if_pos hutf] at hread
        exact nomatch hread

/-- The field is read when its bits are in reach, and then exactly these bits. -/
def SizeHonoured (bound : BoundIntegers) (r : Reader) (field : BitstringFieldShape) (isLast : Bool)
    (bits : Int) : Prop :=
  ((∃ value next, readBitstringField hostIsLittleEndian bound r field isLast = .read value next) ↔
      InReach field.kind (r.bitLen - r.pos) bits) ∧
    ∀ value next, readBitstringField hostIsLittleEndian bound r field isLast = .read value next →
      (next.pos : Int) = r.pos + bits

theorem sizeHonoured_of_read {isLast : Bool} {bits : Int} {value : FieldValue} {next : Reader}
    (hread : readBitstringField hostIsLittleEndian bound r field isLast = .read value next) :
    SizeHonoured hostIsLittleEndian bound r field isLast bits ↔
      InReach field.kind (r.bitLen - r.pos) bits ∧ (next.pos : Int) = r.pos + bits := by
  constructor
  · intro h
    exact ⟨h.1.mp ⟨value, next, hread⟩, h.2 value next hread⟩
  · rintro ⟨hreach, hnext⟩
    refine ⟨iff_of_true ⟨value, next, hread⟩ hreach, fun value' next' hread' => ?_⟩
    obtain ⟨rfl, rfl⟩ := FieldRead.read.inj (hread.symm.trans hread')
    exact hnext

theorem sizeHonoured_of_fail {isLast : Bool} {bits : Int} (hfail : ∀ value next,
      readBitstringField hostIsLittleEndian bound r field isLast ≠ .read value next) :
    SizeHonoured hostIsLittleEndian bound r field isLast bits ↔
      ¬InReach field.kind (r.bitLen - r.pos) bits := by
  constructor
  · intro h hreach
    obtain ⟨value, next, hread⟩ := h.1.mpr hreach
    exact hfail value next hread
  · intro hout
    refine ⟨iff_of_false ?_ hout, fun value next hread => absurd hread (hfail value next)⟩
    rintro ⟨value, next, hread⟩
    exact hfail value next hread

theorem inReach_wrapped_iff (hkind : field.kind.Readable) {bitLen pos bits : Nat}
    (hpos : pos ≤ bitLen) : InReach field.kind (bitLen - pos) bits ↔
      pos + bits ≤ bitLen ∧ (field.kind.bitType = .integer → bits ≤ 64) := by
  have hty : field.kind.bitType = .integer ↔ field.kind = .integer := by
    rcases hkind with hk | hk | hk <;> rw [hk] <;> decide
  rw [hty]
  constructor
  · rintro ⟨-, hle, hwide⟩
    exact ⟨by omega, fun h => by exact_mod_cast hwide h⟩
  · rintro ⟨hle, hwide⟩
    exact ⟨by omega, by omega, fun h => by exact_mod_cast hwide h⟩

/-- A size is honoured exactly when the bits that the reader looks for are its bits, or when both
are out of reach. -/
theorem size_honoured_iff (bound : BoundIntegers) (bs : Bitstring) (pos : Nat)
    (field : BitstringFieldShape) (isLast : Bool) (hpos : pos ≤ bs.payload.bitLen)
    (hsize : field.size = some size) (hn : bound.sizeOf size = some n) :
    SizeHonoured hostIsLittleEndian bound ⟨bs, bs.payload.bitLen, pos⟩ field isLast
        (n * field.unitBits) ↔ if field.kind.Readable then
        n * field.unitBits = wrappedBits n field.unitBits ∨
          (¬InReach field.kind (bs.payload.bitLen - pos) (wrappedBits n field.unitBits) ∧
            ¬InReach field.kind (bs.payload.bitLen - pos) (n * field.unitBits))
      else ¬InReach field.kind (bs.payload.bitLen - pos) (n * field.unitBits) := by
  by_cases hkind : field.kind.Readable
  · rw [if_pos hkind]
    obtain ⟨sizeBits, unit, hbits, hfield⟩ :=
      readBitstringField_readable hostIsLittleEndian (r := ⟨bs, bs.payload.bitLen, pos⟩) hkind
        hsize hn isLast
    have hreach : InReach field.kind (bs.payload.bitLen - pos) (sizeBits * unit).toNat ↔ _ :=
      inReach_wrapped_iff hkind hpos
    rw [← hbits]
    by_cases hin : InReach field.kind (bs.payload.bitLen - pos) (sizeBits * unit).toNat
    · obtain ⟨hroom, hwide⟩ := hreach.mp hin
      obtain ⟨value, hread⟩ := readFieldBits_reads hostIsLittleEndian (.of_pos bs hpos) hroom hwide
      rw [hread] at hfield
      rw [sizeHonoured_of_read hostIsLittleEndian hfield]
      constructor
      · rintro ⟨-, hnext⟩
        have hnext : ((pos + (sizeBits * unit).toNat : Nat) : Int) = pos + _ := hnext
        exact .inl (by omega)
      · rintro (heq | ⟨hout, -⟩)
        · rw [heq]
          exact ⟨hin, by push_cast; rfl⟩
        · exact absurd hin hout
    · rw [readFieldBits_fails hostIsLittleEndian (.of_pos bs hpos) (mt hreach.mpr hin)] at hfield
      rw [sizeHonoured_of_fail hostIsLittleEndian fun value next h => nomatch hfield.symm.trans h]
      constructor
      · exact fun hout => .inr ⟨hin, hout⟩
      · rintro (heq | ⟨-, hout⟩)
        · rwa [heq]
        · exact hout
  · rw [if_neg hkind]
    exact sizeHonoured_of_fail hostIsLittleEndian
      (readBitstringField_unreadable hostIsLittleEndian hkind isLast)

end Host

/-- An integer field of one byte or more, by the size that a subject is bound to. -/
def sizedByteField : BitstringFieldShape where
  kind := .integer
  size := some (.binding 0)
  endian := .big
  signed := false
  unit := none

def boundTo (n : BitVec 64) : BoundIntegers where
  subject := fun _ => some n
  pin := fun _ => none

theorem one_byte_honoured : SizeHonoured false (boundTo 8) ⟨.inline (payloadOf [7] 8), 8, 0⟩
    sizedByteField true (8 * sizedByteField.unitBits) :=
  (size_honoured_iff false (boundTo 8) (.inline (payloadOf [7] 8)) 0 sizedByteField true
    (by decide) rfl rfl).mpr (.inl (by decide))

/-- A size of more than `2 ^ 32` bits matches one byte. -/
theorem huge_size_matches : ¬SizeHonoured false (boundTo 0x100000008)
    ⟨.inline (payloadOf [7] 8), 8, 0⟩ sizedByteField true
    (0x100000008 * sizedByteField.unitBits) := by
  intro h
  obtain ⟨-, hle, -⟩ := h.1.mp ⟨_, _, rfl⟩
  exact absurd hle (by decide)

end Fz.Bitstr
