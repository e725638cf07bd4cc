import Fz.Bitstr.RoundTrip
import Mathlib.Data.Option.Defs

/-!
# The byte-aligned shortcuts

Where both sides stand at a byte boundary, the writer appends the bytes of its source at once and
the reader slices bytes out, or shares the tail of a shared buffer.  Everywhere else both go bit by
bit.  Here is the writer and the reader that always go bit by bit, and nothing tells them from the
others: the builders are the same, and the binaries read out have the same length and bytes,
however they and the binaries they come from are represented (`shortcuts_invisible`).

A builder is determined by the bits it holds, and so is a binary of whole bytes.  The shortcuts are
taken for whole bytes only, so it is enough that the bits agree.
-/

namespace Fz.Bitstr

open Fz.Base Fz.Terms

/-! ## Bytes and their bits -/

theorem byteBits_injective {a b : UInt8} (h : byteBits a = byteBits b) : a = b := by
  have hvalue : ∀ x : UInt8, (byteBits x).foldl shiftIn 0 = BitVec.ofNat 64 x.toNat := by
    intro x
    have hx := x.toNat_lt
    have hnat : (BitVec.ofNat 64 x.toNat).toNat = x.toNat := by
      rw [BitVec.toNat_ofNat]
      omega
    have hfold : (bitsOf 8 (BitVec.ofNat 64 x.toNat).toNat).foldl shiftIn 0 =
        BitVec.ofNat 64 x.toNat := foldl_shiftIn_bitsOf (by omega)
    rwa [hnat] at hfold
  have heq := (hvalue a).symm.trans ((congrArg (List.foldl shiftIn 0) h).trans (hvalue b))
  have ha := a.toNat_lt
  have hb := b.toNat_lt
  have hnat := congrArg BitVec.toNat heq
  rw [BitVec.toNat_ofNat, BitVec.toNat_ofNat] at hnat
  exact UInt8.toNat_inj.mp (by omega)

theorem flatMap_byteBits_injective {bytes bytes' : List UInt8}
    (h : bytes.flatMap byteBits = bytes'.flatMap byteBits) : bytes = bytes' := by
  induction bytes generalizing bytes' with
  | nil =>
    cases bytes' with
    | nil => rfl
    | cons b bytes' =>
      have hlen := congrArg List.length h
      rw [length_flatMap_byteBits, length_flatMap_byteBits] at hlen
      exact nomatch hlen
  | cons a bytes ih =>
    cases bytes' with
    | nil =>
      have hlen := congrArg List.length h
      rw [length_flatMap_byteBits, length_flatMap_byteBits] at hlen
      exact nomatch hlen
    | cons b bytes' =>
      rw [List.flatMap_cons, List.flatMap_cons] at h
      obtain ⟨hhead, htail⟩ := List.append_inj h (by rw [length_byteBits, length_byteBits])
      rw [byteBits_injective hhead, ih htail]

theorem BitWriter.Holds.eq {w w' : BitWriter} {bits : List Bool} (h : w.Holds bits)
    (h' : w'.Holds bits) : w = w' := by
  obtain ⟨bytes, bitLen⟩ := w
  obtain ⟨bytes', bitLen'⟩ := w'
  obtain rfl : bytes = bytes' := flatMap_byteBits_injective (h.bytes.trans h'.bytes.symm)
  obtain rfl : bitLen = bitLen' := h.bitLen.trans h'.bitLen.symm
  rfl

theorem payload_eq_of_bits {p q : BitPayload} (hbits : p.bits = q.bits)
    (hwhole : p.bitLen % 8 = 0) : p = q := by
  have hlen : p.bitLen = q.bitLen := by
    rw [← p.length_bits, hbits, q.length_bits]
  have hall : ∀ o : BitPayload, o.bitLen % 8 = 0 → o.bits = o.bytes.flatMap byteBits := by
    intro o ho
    have hbytes := o.length_bytes
    rw [BitPayload.bits, List.take_of_length_le]
    rw [length_flatMap_byteBits]
    omega
  rw [hall p hwhole, hall q (hlen ▸ hwhole)] at hbits
  have hbytes := flatMap_byteBits_injective hbits
  obtain ⟨bitLen, bytes, hp⟩ := p
  obtain ⟨bitLen', bytes', hq⟩ := q
  subst hlen hbytes
  rfl

/-! ## Bit by bit -/

section Host

variable (hostIsLittleEndian : Bool)

def writeBinaryBitwise (w : BitWriter) (f : FieldSpec) (src : BitPayload) : Option BitWriter :=
  let needed := f.neededBits src.bitLen
  if needed ≤ src.bitLen then copyBits ⟨src.bytes, src.bitLen, 0⟩ w needed else none

def writeFieldBitwise (w : BitWriter) (f : FieldSpec) (value : FieldValue) : Option BitWriter :=
  match f.ty, value with
  | .integer, value => writeFieldValue hostIsLittleEndian w f value
  | .binary, .bitstring b | .bits, .bitstring b => writeBinaryBitwise w f b.payload
  | .binary, .int _ | .bits, .int _ => none

def writeFieldsBitwise (w : BitWriter) : List (FieldSpec × FieldValue) → Option BitWriter
  | [] => some w
  | (f, value) :: fields => do
    let w ← writeFieldBitwise hostIsLittleEndian w f value
    writeFieldsBitwise w fields

/-- A fresh copy of the next bits. -/
def readBinaryBitwise (r : Reader) (needed : Nat) : Option Bitstring := do
  let bytes := r.bs.payload.bytes.take ((r.bitLen + 7) / 8)
  let w ← copyBits ⟨bytes, r.bitLen, r.pos⟩ .empty needed
  some (allocBitstring w.bytes needed)

def readFieldBitwise (r : Reader) (ty : BitType) (size : Option (BitVec 32)) (unit : BitVec 32)
    (endian : Endian) (signed isLast : Bool) : Option (FieldValue × Reader) :=
  match ty with
  | .integer => readFieldBits hostIsLittleEndian r .integer size unit endian signed isLast
  | .binary | .bits => do
    let needed ← r.neededBits size unit isLast
    if r.pos + needed > r.bitLen then none
    else do
      let b ← readBinaryBitwise r needed
      some (.bitstring b, { r with pos := r.pos + needed })

def readFieldRefBitwise (r : Reader) (fieldSpec : BitVec 64) (sizeValue : BitVec 32) :
    Option (FieldValue × Reader) := do
  let spec := decodeBsFieldSpec fieldSpec
  let ty ← decodeBitType spec.tyTag
  let size := if spec.sizePresent ≠ 0 then some sizeValue else none
  let endian ← decodeEndian spec.endianTag
  readFieldBitwise hostIsLittleEndian r ty size spec.unit endian (spec.signed != 0)
    (spec.isLast != 0)

def readFieldsBitwise (r : Reader) : List FieldSpec → Option (List FieldValue × Reader)
  | [] => some ([], r)
  | f :: fields => do
    let (value, r) ←
      readFieldRefBitwise hostIsLittleEndian r (f.pack fields.isEmpty) (f.size.getD 0)
    let (values, r) ← readFieldsBitwise r fields
    some (value :: values, r)

end Host

/-! ## Same values -/

/-- Values that differ in the representation of a binary only. -/
def SameValue : FieldValue → FieldValue → Prop
  | .int n, .int m => n = m
  | .bitstring b, .bitstring b' => b.payload = b'.payload
  | _, _ => False

/-- Readers at the same place of the same bits. -/
structure SameReader (r r' : Reader) : Prop where
  payload : r.bs.payload = r'.bs.payload
  bitLen : r.bitLen = r'.bitLen
  pos : r.pos = r'.pos

/-! ## The writer -/

section Host

variable {hostIsLittleEndian : Bool}

theorem writeBinary_eq_bitwise {w : BitWriter} {bits : List Bool} (hw : w.Holds bits)
    (f : FieldSpec) (src : BitPayload) : writeBinary w f src = writeBinaryBitwise w f src := by
  by_cases hneeded : f.neededBits src.bitLen ≤ src.bitLen
  · have hsees := BitReader.Sees.of_payload src (Nat.zero_le _)
    rw [List.drop_zero, ← List.take_append_drop (f.neededBits src.bitLen) src.bits] at hsees
    have htake : (src.bits.take (f.neededBits src.bitLen)).length = f.neededBits src.bitLen := by
      rw [List.length_take, src.length_bits]
      omega
    obtain ⟨w₁, hcopy, hholds⟩ := hsees.copyBits _ hw
    rw [htake] at hcopy
    rw [writeBinaryBitwise, if_pos hneeded, hcopy]
    cases hwrite : writeBinary w f src with
    | none =>
      rw [writeBinary, if_pos hneeded] at hwrite
      split at hwrite
      · cases hwrite
      · cases hcopy.symm.trans hwrite
    | some w₂ => rw [((writeBinary_holds hw hwrite).2).eq hholds]
  · rw [writeBinary, writeBinaryBitwise, if_neg hneeded, if_neg hneeded]

theorem writeField_eq_bitwise {w : BitWriter} {bits : List Bool} (hw : w.Holds bits)
    (f : FieldSpec) {value value' : FieldValue} (hsame : SameValue value value') :
    writeFieldValue hostIsLittleEndian w f value =
      writeFieldBitwise hostIsLittleEndian w f value' := by
  cases value with
  | int n =>
    cases value' with
    | int m =>
      obtain rfl : n = m := hsame
      rw [writeFieldBitwise.eq_def]
      cases hty : f.ty with
      | integer => rfl
      | binary | bits => rw [writeFieldValue.eq_def, hty]
    | bitstring b => exact hsame.elim
  | bitstring b =>
    cases value' with
    | int n => exact hsame.elim
    | bitstring b' =>
      have hpayload : b.payload = b'.payload := hsame
      rw [writeFieldBitwise.eq_def, writeFieldValue.eq_def]
      cases hty : f.ty with
      | integer =>
        show none = writeFieldValue hostIsLittleEndian w f (.bitstring b')
        rw [writeFieldValue.eq_def, hty]
      | binary | bits =>
        show writeBinary w f b.payload = writeBinaryBitwise w f b'.payload
        rw [hpayload, writeBinary_eq_bitwise hw]

theorem writeFields_eq_bitwise {fields fields' : List (FieldSpec × FieldValue)}
    (hsame : List.Forall₂ (fun x y => x.1 = y.1 ∧ SameValue x.2 y.2) fields fields')
    {w : BitWriter} {bits : List Bool} (hw : w.Holds bits) :
    writeFields hostIsLittleEndian w fields = writeFieldsBitwise hostIsLittleEndian w fields' := by
  induction hsame generalizing w bits with
  | nil => rfl
  | @cons x y fields fields' hhead _ ih =>
    obtain ⟨f, value⟩ := x
    obtain ⟨f', value'⟩ := y
    obtain ⟨rfl, hvalue⟩ := hhead
    have hfield : writeFieldValue hostIsLittleEndian w f value =
        writeFieldBitwise hostIsLittleEndian w f value' := writeField_eq_bitwise hw f hvalue
    rw [writeFields, writeFieldsBitwise, ← hfield]
    cases hwrite : writeFieldValue hostIsLittleEndian w f value with
    | none => rfl
    | some w₁ =>
      obtain ⟨xs, -, hholds⟩ := writeFieldValue_holds hw hwrite
      exact ih hholds

/-! ## The reader -/

variable {rest : List Bool}

variable {r r' : Reader}

theorem SameReader.at (h : SameReader r r') (hr : r.At rest) : r'.At rest := by
  obtain ⟨bs, bitLen, pos⟩ := r
  obtain ⟨bs', bitLen', pos'⟩ := r'
  obtain ⟨hpayload, rfl, rfl⟩ := h
  have hpayload : bs.payload = bs'.payload := hpayload
  refine ⟨?_, hr.pos_le, ?_⟩
  · rw [← hpayload]
    exact hr.bitLen
  · rw [← hpayload]
    exact hr.bits

theorem readBinaryBitwise_at {r : Reader} {xs rest : List Bool} (h : r.At (xs ++ rest)) :
    ∃ b, readBinaryBitwise r xs.length = some b ∧ b.payload.bits = xs := by
  obtain ⟨w, hcopy, hholds⟩ := h.sees.copyBits xs .empty
  rw [List.nil_append] at hholds
  refine ⟨allocBitstring w.bytes xs.length, ?_, ?_⟩
  · rw [readBinaryBitwise, hcopy]
    rfl
  · rw [← hholds.bitLen]
    exact hholds.allocBitstring_bits

theorem readBinary_eq_bitwise (h : SameReader r r') {needed : Nat}
    (hodd : needed % 8 ≠ 0) : readBinary r needed = readBinaryBitwise r' needed := by
  have hcopy : ∀ x : Option Bitstring, (if r.pos % 8 = 0 ∧ needed % 8 = 0 then x else do
      let w ← copyBits ⟨r.bs.payload.bytes.take ((r.bitLen + 7) / 8), r.bitLen, r.pos⟩ .empty
        needed
      some (allocBitstring w.bytes needed)) = readBinaryBitwise r' needed := by
    intro x
    rw [if_neg fun hx => hodd hx.2, readBinaryBitwise, h.payload, h.bitLen, h.pos]
  rw [readBinary]
  split
  · rw [if_neg fun hx => hodd hx.2.2]
    exact hcopy _
  · exact hcopy _

theorem readBinary_same {xs rest : List Bool} (h : SameReader r r') (hr : r.At (xs ++ rest)) :
    ∃ b b', readBinary r xs.length = some b ∧ readBinaryBitwise r' xs.length = some b' ∧
      b.payload = b'.payload := by
  obtain ⟨b, hread, hbits⟩ := hr.readBinary
  obtain ⟨b', hread', hbits'⟩ := readBinaryBitwise_at (h.at hr)
  refine ⟨b, b', hread, hread', ?_⟩
  by_cases hwhole : xs.length % 8 = 0
  · refine payload_eq_of_bits (hbits.trans hbits'.symm) ?_
    rw [← b.payload.length_bits, hbits, hwhole]
  · rw [readBinary_eq_bitwise h hwhole, hread'] at hread
    rw [Option.some.inj hread]

/-- What the two readers of a field return. -/
def SameRead (x y : FieldValue × Reader) : Prop :=
  SameValue x.1 y.1 ∧ SameReader x.2 y.2 ∧ ∃ rest, x.2.At rest

theorem rel_bind {α β γ δ : Type} {R : α → β → Prop} {S : γ → δ → Prop} {x : Option α}
    {y : Option β} {f : α → Option γ} {g : β → Option δ} (h : Option.Rel R x y)
    (hfg : ∀ a b, R a b → Option.Rel S (f a) (g b)) : Option.Rel S (x.bind f) (y.bind g) := by
  cases h with
  | none => exact .none
  | some hab => exact hfg _ _ hab

theorem Reader.At.skip {r : Reader} (hr : r.At rest) {n : Nat}
    (hn : r.pos + n ≤ r.bitLen) : Reader.At { r with pos := r.pos + n } (rest.drop n) := by
  have hpos := hr.pos_le
  rw [← List.take_append_drop n rest] at hr
  have hnext := hr.advance
  rwa [List.length_take, Nat.min_eq_left (by omega)] at hnext

variable (hostIsLittleEndian)

theorem readInteger_same (h : SameReader r r')
    (hr : r.At rest) (size : Option (BitVec 32)) (unit : BitVec 32) (endian : Endian)
    (signed isLast : Bool) : Option.Rel SameRead
      (readFieldBits hostIsLittleEndian r .integer size unit endian signed isLast)
      (readFieldBits hostIsLittleEndian r' .integer size unit endian signed isLast) := by
  rw [readFieldBits, readFieldBits, ← h.payload, ← h.bitLen, ← h.pos]
  dsimp only
  split
  · exact .none
  cases hbits : (BitReader.mk (r.bs.payload.bytes.take ((r.bitLen + 7) / 8)) r.bitLen
      r.pos).readBits (size.getD 8 * unit).toNat with
  | none => exact .none
  | some x =>
    have hroom : r.pos + (size.getD 8 * unit).toNat ≤ r.bitLen := by
      have hpos := hr.pos_le
      rw [BitReader.readBits] at hbits
      split at hbits
      · cases hbits
      · next hleft =>
        have hleft : ¬r.bitLen - r.pos < _ := hleft
        omega
    refine .some ⟨rfl, ?_, _, hr.skip hroom⟩
    exact ⟨h.payload, rfl, rfl⟩

theorem readFieldBits_same (h : SameReader r r')
    (hr : r.At rest) (ty : BitType) (size : Option (BitVec 32)) (unit : BitVec 32)
    (endian : Endian) (signed isLast : Bool) : Option.Rel SameRead
      (readFieldBits hostIsLittleEndian r ty size unit endian signed isLast)
      (readFieldBitwise hostIsLittleEndian r' ty size unit endian signed isLast) := by
  have hbinary : Option.Rel SameRead
      ((r.neededBits size unit isLast).bind fun needed =>
        if r.pos + needed > r.bitLen then none
        else (readBinary r needed).bind fun b => some (FieldValue.bitstring b,
          ({ r with pos := r.pos + needed } : Reader)))
      ((r'.neededBits size unit isLast).bind fun needed =>
        if r'.pos + needed > r'.bitLen then none
        else (readBinaryBitwise r' needed).bind fun b => some (FieldValue.bitstring b,
          ({ r' with pos := r'.pos + needed } : Reader))) := by
    have hneeded : r'.neededBits size unit isLast = r.neededBits size unit isLast := by
      rw [Reader.neededBits.eq_def, Reader.neededBits.eq_def, h.bitLen, h.pos]
    rw [hneeded]
    cases r.neededBits size unit isLast with
    | none => exact .none
    | some needed =>
      rw [Option.bind_some, Option.bind_some, ← h.bitLen, ← h.pos]
      split
      · exact .none
      · next hroom =>
        have hpos := hr.pos_le
        have hsplit := hr
        rw [← List.take_append_drop needed rest] at hsplit
        obtain ⟨b, b', hread, hread', hpayload⟩ := readBinary_same h hsplit
        rw [List.length_take, Nat.min_eq_left (by omega)] at hread hread'
        rw [hread, hread', Option.bind_some, Option.bind_some]
        exact .some ⟨hpayload, ⟨h.payload, rfl, rfl⟩, _, hr.skip (by omega)⟩
  cases ty with
  | integer => exact readInteger_same hostIsLittleEndian h hr size unit endian signed isLast
  | binary | bits => exact hbinary

theorem readFieldRef_same (h : SameReader r r')
    (hr : r.At rest) (fieldSpec : BitVec 64) (sizeValue : BitVec 32) :
    Option.Rel SameRead (readFieldRef hostIsLittleEndian r fieldSpec sizeValue)
      (readFieldRefBitwise hostIsLittleEndian r' fieldSpec sizeValue) := by
  rw [readFieldRef, readFieldRefBitwise]
  dsimp only
  cases decodeBitType (decodeBsFieldSpec fieldSpec).tyTag with
  | none => exact .none
  | some ty =>
    cases decodeEndian (decodeBsFieldSpec fieldSpec).endianTag with
    | none => exact .none
    | some endian => exact readFieldBits_same hostIsLittleEndian h hr ty _ _ endian _ _

theorem readFields_same (h : SameReader r r') (hr : r.At rest) (fields : List FieldSpec) :
    Option.Rel (fun x y => List.Forall₂ SameValue x.1 y.1 ∧ SameReader x.2 y.2)
      (readFields hostIsLittleEndian r fields)
      (readFieldsBitwise hostIsLittleEndian r' fields) := by
  induction fields generalizing r r' rest with
  | nil => exact .some ⟨.nil, h⟩
  | cons f fields ih =>
    rw [readFields, readFieldsBitwise]
    refine rel_bind (readFieldRef_same hostIsLittleEndian h hr _ _) ?_
    rintro x y ⟨hvalue, hreader, rest', hrest⟩
    refine rel_bind (ih hreader hrest) ?_
    rintro xs ys ⟨hvalues, hreader'⟩
    exact .some ⟨.cons hvalue hvalues, hreader'⟩

end Host

/-- Nothing that is built or read tells the shortcuts from going bit by bit, whichever way the
binaries involved are represented. -/
theorem shortcuts_invisible (hostIsLittleEndian : Bool) :
    (∀ fields fields' : List (FieldSpec × FieldValue),
      List.Forall₂ (fun x y => x.1 = y.1 ∧ SameValue x.2 y.2) fields fields' →
        writeFields hostIsLittleEndian .empty fields =
          writeFieldsBitwise hostIsLittleEndian .empty fields') ∧
    ∀ bs bs' : Bitstring, bs.payload = bs'.payload →
      (∀ pos needed, pos + needed ≤ bs.payload.bitLen →
        ∃ b b', readBinary ⟨bs, bs.payload.bitLen, pos⟩ needed = some b ∧
          readBinaryBitwise ⟨bs', bs'.payload.bitLen, pos⟩ needed = some b' ∧
          b.payload = b'.payload) ∧
      ∀ fields, Option.Rel (fun x y => List.Forall₂ SameValue x.1 y.1 ∧ SameReader x.2 y.2)
        (readFields hostIsLittleEndian (readerInit bs) fields)
        (readFieldsBitwise hostIsLittleEndian (readerInit bs') fields) := by
  refine ⟨fun fields fields' hsame => writeFields_eq_bitwise hsame .empty,
    fun bs bs' hpayload => ⟨fun pos needed hroom => ?_, fun fields => ?_⟩⟩
  · have hreader : SameReader ⟨bs, bs.payload.bitLen, pos⟩ ⟨bs', bs'.payload.bitLen, pos⟩ :=
      ⟨hpayload, congrArg BitPayload.bitLen hpayload, rfl⟩
    have hr := Reader.At.of_pos bs (show pos ≤ bs.payload.bitLen by omega)
    have hlen := hr.pos_le
    have hlen : pos + _ = bs.payload.bitLen := hlen
    rw [← List.take_append_drop needed (bs.payload.bits.drop pos)] at hr
    obtain ⟨b, b', hread, hread', hsame⟩ := readBinary_same hreader hr
    rw [List.length_take, Nat.min_eq_left (by omega)] at hread hread'
    exact ⟨b, b', hread, hread', hsame⟩
  · have hreader : SameReader (readerInit bs) (readerInit bs') :=
      ⟨hpayload, congrArg BitPayload.bitLen hpayload, rfl⟩
    exact readFields_same hostIsLittleEndian hreader (.init bs) fields

/-- The tail of a shared buffer is the copy that its inline twin gives. -/
theorem shared_tail_is_copy :
    ∃ b b', readBinary ⟨.procbin ⟨payloadOf [] 640, 0, by decide⟩, 640, 8⟩ 632 = some b ∧
      readBinaryBitwise ⟨.inline (payloadOf [] 640), 640, 8⟩ 632 = some b' ∧
      b.payload = b'.payload :=
  ((shortcuts_invisible true).2 (.procbin ⟨payloadOf [] 640, 0, by decide⟩)
    (.inline (payloadOf [] 640)) rfl).1 8 632 (by decide)

end Fz.Bitstr
