import Fz.Base.Except
import Fz.Bitstr.Stream

/-!
# UTF fields

The encoders of UTF-8, UTF-16 and UTF-32 refuse what is no Unicode scalar value.  The decoders read
code units off a bit reader and put a code point together from them; they check the shape of the
units and not the code point.

The validator of binaries is another function, over bytes: the second byte of a sequence is checked
against a range that depends on the first.
-/

namespace Fz.Bitstr

open Fz.Base Fz.Terms

/-- The code points that text can hold: no surrogates, and nothing above the last plane. -/
def IsScalar (cp : Nat) : Prop := cp ≤ 0x10ffff ∧ ¬(0xd800 ≤ cp ∧ cp ≤ 0xdfff)

instance : DecidablePred IsScalar := fun cp =>
  inferInstanceAs (Decidable (cp ≤ 0x10ffff ∧ ¬(0xd800 ≤ cp ∧ cp ≤ 0xdfff)))

/-! ## UTF-8 -/

def encodeUtf8 (cp : Nat) : Option (List UInt8) :=
  if cp > 0x10ffff ∨ (0xd800 ≤ cp ∧ cp ≤ 0xdfff) then none
  else if cp < 0x80 then some [UInt8.ofNat cp]
  else if cp < 0x800 then
    some [(0xc0 : UInt8) ||| UInt8.ofNat (cp >>> 6), (0x80 : UInt8) ||| UInt8.ofNat (cp &&& 0x3f)]
  else if cp < 0x10000 then
    some [(0xe0 : UInt8) ||| UInt8.ofNat (cp >>> 12),
      (0x80 : UInt8) ||| UInt8.ofNat ((cp >>> 6) &&& 0x3f),
      (0x80 : UInt8) ||| UInt8.ofNat (cp &&& 0x3f)]
  else
    some [(0xf0 : UInt8) ||| UInt8.ofNat (cp >>> 18),
      (0x80 : UInt8) ||| UInt8.ofNat ((cp >>> 12) &&& 0x3f),
      (0x80 : UInt8) ||| UInt8.ofNat ((cp >>> 6) &&& 0x3f),
      (0x80 : UInt8) ||| UInt8.ofNat (cp &&& 0x3f)]

/-- The next eight bits. -/
def readByte (r : BitReader) : Option (Nat × BitReader) := do
  let (b, r) ← r.readBits 8
  some (b.toNat, r)

/-- So many continuation bytes, after the code point read so far. -/
def readContinuations (r : BitReader) (cp : Nat) : Nat → Option (Nat × BitReader)
  | 0 => some (cp, r)
  | extras + 1 => do
    let (b, r) ← readByte r
    if b &&& 0xc0 ≠ 0x80 then none
    else readContinuations r ((cp <<< 6) ||| (b &&& 0x3f)) extras

/-- The continuation bytes that a lead byte announces, and the bits it holds itself. -/
def leadByte (b0 : Nat) : Option (Nat × Nat) :=
  if b0 &&& 0xe0 = 0xc0 then some (1, 0x1f)
  else if b0 &&& 0xf0 = 0xe0 then some (2, 0x0f)
  else if b0 &&& 0xf8 = 0xf0 then some (3, 0x07)
  else none

def decodeUtf8 (r : BitReader) : Option (Nat × BitReader) :=
  if r.pos % 8 ≠ 0 then none
  else do
    let (b0, r) ← readByte r
    if b0 < 0x80 then some (b0, r)
    else do
      let (extras, mask) ← leadByte b0
      readContinuations r (b0 &&& mask) extras

/-! ## UTF-16 and UTF-32 -/

section Host

variable (hostIsLittleEndian : Bool)

def Endian.isLittle (endian : Endian) : Prop :=
  endian = .little ∨ (endian = .native ∧ hostIsLittleEndian)

instance (endian : Endian) : Decidable (endian.isLittle hostIsLittleEndian) :=
  inferInstanceAs (Decidable (_ ∨ _))

def encodeUnit (endian : Endian) (u : Nat) : List UInt8 :=
  if endian.isLittle hostIsLittleEndian then [UInt8.ofNat (u &&& 0xff), UInt8.ofNat (u >>> 8)]
  else [UInt8.ofNat (u >>> 8), UInt8.ofNat (u &&& 0xff)]

def encodeUtf16 (cp : Nat) (endian : Endian) : Option (List UInt8) :=
  if cp > 0x10ffff ∨ (0xd800 ≤ cp ∧ cp ≤ 0xdfff) then none
  else
    let units :=
      if cp < 0x10000 then [cp]
      else [0xd800 ||| (cp - 0x10000) >>> 10, 0xdc00 ||| ((cp - 0x10000) &&& 0x3ff)]
    some (units.flatMap (encodeUnit hostIsLittleEndian endian))

def readUnit (endian : Endian) (r : BitReader) : Option (Nat × BitReader) := do
  let (lo, r) ← readByte r
  let (hi, r) ← readByte r
  some (if endian.isLittle hostIsLittleEndian then (hi <<< 8) ||| lo else (lo <<< 8) ||| hi, r)

def decodeUtf16 (r : BitReader) (endian : Endian) : Option (Nat × BitReader) := do
  let (u1, r) ← readUnit hostIsLittleEndian endian r
  if ¬(0xd800 ≤ u1 ∧ u1 ≤ 0xdbff) then some (u1, r)
  else do
    let (u2, r) ← readUnit hostIsLittleEndian endian r
    if ¬(0xdc00 ≤ u2 ∧ u2 ≤ 0xdfff) then none
    else some (0x10000 + (((u1 &&& 0x3ff) <<< 10) ||| (u2 &&& 0x3ff)), r)

def encodeUtf32 (cp : Nat) (endian : Endian) : Option (List UInt8) :=
  if cp > 0x10ffff ∨ (0xd800 ≤ cp ∧ cp ≤ 0xdfff) then none
  else
    some <| if endian.isLittle hostIsLittleEndian then
      [UInt8.ofNat (cp &&& 0xff), UInt8.ofNat ((cp >>> 8) &&& 0xff),
        UInt8.ofNat ((cp >>> 16) &&& 0xff), UInt8.ofNat ((cp >>> 24) &&& 0xff)]
    else
      [UInt8.ofNat ((cp >>> 24) &&& 0xff), UInt8.ofNat ((cp >>> 16) &&& 0xff),
        UInt8.ofNat ((cp >>> 8) &&& 0xff), UInt8.ofNat (cp &&& 0xff)]

def decodeUtf32 (r : BitReader) (endian : Endian) : Option (Nat × BitReader) := do
  let (b0, r) ← readByte r
  let (b1, r) ← readByte r
  let (b2, r) ← readByte r
  let (b3, r) ← readByte r
  some (if endian.isLittle hostIsLittleEndian then
      (b3 <<< 24) ||| (b2 <<< 16) ||| (b1 <<< 8) ||| b0
    else (b0 <<< 24) ||| (b1 <<< 16) ||| (b2 <<< 8) ||| b3, r)

end Host

/-! ## Validation -/

/-- A byte at an index, in a range.  The error is the index, or the length where the bytes end. -/
def utf8ByteIn (bytes : List UInt8) (index : Nat) (min max : UInt8) : Except Nat Unit :=
  match bytes[index]? with
  | some byte => if min ≤ byte ∧ byte ≤ max then .ok () else .error index
  | none => .error bytes.length

def utf8Continuation (bytes : List UInt8) (index : Nat) : Except Nat Unit :=
  utf8ByteIn bytes index 0x80 0xbf

/-- The length of the first code point, or the offset where its bytes stop being valid. -/
def utf8Prefix (bytes : List UInt8) : Except Nat Nat :=
  match bytes.head? with
  | none => .ok 0
  | some first =>
    if first ≤ 0x7f then .ok 1
    else if 0xc2 ≤ first ∧ first ≤ 0xdf then do
      utf8ByteIn bytes 1 0x80 0xbf
      pure 2
    else if first = 0xe0 then do
      utf8ByteIn bytes 1 0xa0 0xbf
      utf8Continuation bytes 2
      pure 3
    else if (0xe1 ≤ first ∧ first ≤ 0xec) ∨ (0xee ≤ first ∧ first ≤ 0xef) then do
      utf8Continuation bytes 1
      utf8Continuation bytes 2
      pure 3
    else if first = 0xed then do
      utf8ByteIn bytes 1 0x80 0x9f
      utf8Continuation bytes 2
      pure 3
    else if first = 0xf0 then do
      utf8ByteIn bytes 1 0x90 0xbf
      utf8Continuation bytes 2
      utf8Continuation bytes 3
      pure 4
    else if 0xf1 ≤ first ∧ first ≤ 0xf3 then do
      utf8Continuation bytes 1
      utf8Continuation bytes 2
      utf8Continuation bytes 3
      pure 4
    else if first = 0xf4 then do
      utf8ByteIn bytes 1 0x80 0x8f
      utf8Continuation bytes 2
      utf8Continuation bytes 3
      pure 4
    else .error 0

theorem utf8Prefix_pos {bytes : List UInt8} (hne : bytes ≠ []) {width : Nat}
    (h : utf8Prefix bytes = .ok width) : 0 < width := by
  cases bytes with
  | nil => exact absurd rfl hne
  | cons first rest =>
    simp only [utf8Prefix, List.head?_cons] at h
    split_ifs at h <;>
      simp only [Except.bind_eq_ok, pure, Except.pure, Except.ok.injEq] at h
    · omega
    all_goals
      obtain ⟨-, -, h⟩ := h
      repeat obtain ⟨-, -, h⟩ := h
      omega

/-- The loop of the validator: code point after code point to the end. -/
def validUtf8From (bytes : List UInt8) (offset : Nat) : Bool :=
  if hlt : offset < bytes.length then
    match hwidth : utf8Prefix (bytes.drop offset) with
    | .ok width => validUtf8From bytes (offset + width)
    | .error _ => false
  else true
termination_by bytes.length - offset
decreasing_by
  have hpos := utf8Prefix_pos (List.drop_eq_nil_iff.not.mpr (by omega)) hwidth
  omega

/-- `fz_bitstring_valid_utf8`.  A reference that is no bitstring is answered like an invalid
one. -/
def fzBitstringValidUtf8 (bs : Option BitPayload) : Int :=
  match bs with
  | none => 0
  | some p =>
    if p.bitLen % 8 ≠ 0 then 0
    else if validUtf8From (p.bytes.take (p.bitLen / 8)) 0 then 1
    else 0

/-- `fz_bitstring_utf8_prefix`.  A positive result is the length of the first code point, zero
means empty, and a negative result is an offset, as `-offset - 1`. -/
def fzBitstringUtf8Prefix (bs : Option BitPayload) : Int :=
  match bs with
  | none => -1
  | some p =>
    if p.bitLen % 8 ≠ 0 then -1
    else match utf8Prefix (p.bytes.take (p.bitLen / 8)) with
      | .ok width => width
      | .error offset => -(offset : Int) - 1

end Fz.Bitstr
