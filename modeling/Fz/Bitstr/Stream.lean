import Fz.Terms.Bits
import Mathlib.Data.Nat.Bitwise

/-!
# Bit streams

`BitWriter` appends bits to a vector of bytes, the first bit of a byte in its top position, and
`BitReader` goes through such a vector from a bit position.  A writer holds the bits it was given,
padded with zeros to whole bytes (`BitWriter.Holds`).

Multi-byte integers are written in the byte order of their field.  Only whole bytes can be swapped:
a width that is no multiple of eight is left as it is in both directions.
-/

namespace Fz.Bitstr

open Fz.Base Fz.Terms

inductive Endian where
  | big
  | little
  | native
  deriving DecidableEq

/-! ## Writing -/

/-- The bytes written so far; the bits of the last one past `bitLen` are zero. -/
structure BitWriter where
  bytes : List UInt8
  bitLen : Nat

namespace BitWriter

def empty : BitWriter := ⟨[], 0⟩

def appendBit (w : BitWriter) (b : UInt8) : BitWriter :=
  let byteIdx := w.bitLen / 8
  let bitIdx := 7 - w.bitLen % 8
  let bytes := if byteIdx ≥ w.bytes.length then w.bytes ++ [0] else w.bytes
  let bytes := if b ≠ 0 then bytes.modify byteIdx (· ||| 1 <<< UInt8.ofNat bitIdx) else bytes
  ⟨bytes, w.bitLen + 1⟩

/-- Append the low `n` bits of a word, highest first. -/
def writeBits (w : BitWriter) (value : BitVec 64) (n : Nat) : BitWriter :=
  (List.range n).foldl
    (fun w i => w.appendBit (UInt8.ofBitVec (((value >>> (n - 1 - i)) &&& 1).setWidth 8))) w

/-- Append whole bytes at a byte boundary. -/
def extend (w : BitWriter) (bytes : List UInt8) (bits : Nat) : BitWriter :=
  ⟨w.bytes ++ bytes, w.bitLen + bits⟩

end BitWriter

/-! ## Reading -/

structure BitReader where
  bytes : List UInt8
  bitLen : Nat
  pos : Nat

namespace BitReader

def remaining (r : BitReader) : Nat := r.bitLen - r.pos

def readBit (r : BitReader) : Option (UInt8 × BitReader) :=
  if r.pos ≥ r.bitLen then none
  else
    let byte := r.bytes.getD (r.pos / 8) 0
    some ((byte >>> UInt8.ofNat (7 - r.pos % 8)) &&& 1, { r with pos := r.pos + 1 })

/-- `n` further bits, after the word read so far. -/
def readLoop (r : BitReader) (out : BitVec 64) : Nat → Option (BitVec 64 × BitReader)
  | 0 => some (out, r)
  | n + 1 => do
    let (bit, r) ← r.readBit
    readLoop r ((out <<< 1) ||| bit.toBitVec.setWidth 64) n

/-- Read `n` bits as a number, highest first. -/
def readBits (r : BitReader) (n : Nat) : Option (BitVec 64 × BitReader) :=
  if r.remaining < n then none else r.readLoop 0 n

end BitReader

/-- Copy `n` bits, one at a time. -/
def copyBits (r : BitReader) (w : BitWriter) : Nat → Option BitWriter
  | 0 => some w
  | n + 1 => do
    let (bit, r) ← r.readBit
    copyBits r (w.appendBit bit) n

/-! ## Byte order and sign -/

section Endian

variable (hostIsLittleEndian : Bool)

/-- The low `count` bytes of a word in the opposite order. -/
def swapBytes (value : BitVec 64) (count : Nat) : BitVec 64 :=
  (List.range count).foldl
    (fun acc i => acc ||| (((value >>> (i * 8)) &&& 0xff) <<< ((count - 1 - i) * 8))) 0

def applyEndianForWrite (value : BitVec 64) (totalBits : Nat) (endian : Endian) : BitVec 64 :=
  if totalBits = 0 ∨ totalBits > 64 then value
  else
    let little := endian = .little ∨ (endian = .native ∧ hostIsLittleEndian)
    if ¬little then value
    else if totalBits % 8 ≠ 0 then value
    else swapBytes value (totalBits / 8)

def applyEndianForRead (value : BitVec 64) (totalBits : Nat) (endian : Endian) : BitVec 64 :=
  applyEndianForWrite hostIsLittleEndian value totalBits endian

end Endian

def signExtend (value : BitVec 64) (totalBits : Nat) : BitVec 64 :=
  if totalBits = 0 ∨ totalBits ≥ 64 then value
  else if value &&& ((1 : BitVec 64) <<< (totalBits - 1)) ≠ 0 then
    value ||| (~~~(0 : BitVec 64) <<< totalBits)
  else value

/-! ## What a writer holds -/

theorem byteBits_setBit (x : UInt8) {r : Nat} (hr : r < 8) :
    byteBits (x ||| 1 <<< UInt8.ofNat (7 - r)) = (byteBits x).set r true := by
  have hone : ∀ r < 8, ∀ i < 8,
      ((1 : UInt8) <<< UInt8.ofNat (7 - r)).toNat.testBit i = decide (i = 7 - r) := by
    decide
  have hor : ∀ i < 8, (x ||| 1 <<< UInt8.ofNat (7 - r)).toNat.testBit i =
      (x.toNat.testBit i || decide (i = 7 - r)) := by
    intro i hi
    rw [UInt8.toNat_or, Nat.testBit_or, hone r hr i hi]
  simp only [byteBits, bitsOf, hor 0, hor 1, hor 2, hor 3, hor 4, hor 5, hor 6, hor 7, Nat.reduceLT]
  interval_cases r <;> simp

theorem flatMap_modify {f : UInt8 → UInt8} {r : Nat} (hr : r < 8)
    (hf : ∀ x, byteBits (f x) = (byteBits x).set r true) :
    ∀ (bytes : List UInt8) (i : Nat), i < bytes.length →
      (bytes.modify i f).flatMap byteBits = (bytes.flatMap byteBits).set (8 * i + r) true := by
  intro bytes
  induction bytes with
  | nil => exact fun i hi => absurd hi (Nat.not_lt_zero i)
  | cons b bytes ih =>
    intro i hi
    cases i with
    | zero =>
      rw [List.modify_zero_cons, List.flatMap_cons, List.flatMap_cons, hf, Nat.mul_zero,
        Nat.zero_add, List.set_append_left _ _ (by rw [length_byteBits]; exact hr)]
    | succ i =>
      rw [List.modify_succ_cons, List.flatMap_cons, List.flatMap_cons,
        ih i (Nat.lt_of_succ_lt_succ hi),
        List.set_append_right _ _ (by rw [length_byteBits]; omega),
        length_byteBits]
      congr 2
      omega

theorem shiftRight_and_one_ne_zero (value : BitVec 64) (k : Nat) :
    (UInt8.ofBitVec (((value >>> k) &&& 1).setWidth 8) != 0) = value.toNat.testBit k := by
  have hbit : (value >>> k).getLsbD 0 = value.toNat.testBit k := by
    rw [BitVec.getLsbD_ushiftRight, Nat.add_zero]
    rfl
  rw [show (1 : BitVec 64) = 1#64 from rfl, BitVec.and_one_eq_setWidth_ofBool_getLsbD, hbit]
  cases value.toNat.testBit k <;> rfl

theorem map_testBit_range (n x : Nat) :
    (List.range n).map (fun i => x.testBit (n - 1 - i)) = bitsOf n x := by
  induction n with
  | zero => rfl
  | succ n ih =>
    rw [List.range_succ_eq_map, List.map_cons, List.map_map, bitsOf, ← ih]
    congr 1
    refine List.map_congr_left fun i _ => ?_
    show x.testBit (n + 1 - 1 - (i + 1)) = x.testBit (n - 1 - i)
    congr 1
    omega

/-- The zeros after `n` bits in their last byte. -/
def padding (n : Nat) : List Bool := List.replicate ((8 - n % 8) % 8) false

/-- A writer that was given these bits. -/
structure BitWriter.Holds (w : BitWriter) (bits : List Bool) : Prop where
  bitLen : w.bitLen = bits.length
  bytes : w.bytes.flatMap byteBits = bits ++ padding bits.length

namespace BitWriter.Holds

variable {w : BitWriter} {bits : List Bool}

theorem empty : BitWriter.empty.Holds [] := ⟨rfl, rfl⟩

theorem length_bytes (h : w.Holds bits) : w.bytes.length = (w.bitLen + 7) / 8 := by
  have hlen := congrArg List.length h.bytes
  rw [length_flatMap_byteBits, List.length_append, padding, List.length_replicate] at hlen
  rw [h.bitLen]
  omega

theorem appendBit (h : w.Holds bits) (b : UInt8) : (w.appendBit b).Holds (bits ++ [b != 0]) := by
  -- room for one more bit
  have hroom : (if w.bitLen / 8 ≥ w.bytes.length then w.bytes ++ [0] else w.bytes).flatMap
      byteBits = bits ++ false :: padding (bits.length + 1) := by
    have hlen := h.length_bytes
    rw [h.bitLen] at hlen ⊢
    split
    · have hmod : bits.length % 8 = 0 := by omega
      have hnext : (bits.length + 1) % 8 = 1 := by omega
      rw [List.flatMap_append, h.bytes, padding, padding, hmod, hnext]
      simp [byteBits, bitsOf]
    · have hpos : (8 - bits.length % 8) % 8 = (8 - (bits.length + 1) % 8) % 8 + 1 := by omega
      rw [h.bytes, padding, padding, hpos, List.replicate_succ]
  refine ⟨?_, ?_⟩
  · rw [List.length_append, ← h.bitLen]
    rfl
  rw [List.length_append, List.length_singleton]
  show (if b ≠ 0 then _ else _ : List UInt8).flatMap byteBits = _
  by_cases hb : b = 0
  · rw [if_neg (not_not.mpr hb), hroom, hb, List.append_assoc]
    rfl
  · rw [if_pos hb]
    have hidx : w.bitLen / 8 <
        (if w.bitLen / 8 ≥ w.bytes.length then w.bytes ++ [0] else w.bytes).length := by
      have hlen := h.length_bytes
      split
      · rw [List.length_append, List.length_singleton]
        omega
      · omega
    rw [flatMap_modify (Nat.mod_lt _ (by decide))
      (fun x => byteBits_setBit x (Nat.mod_lt w.bitLen (by decide))) _ _ hidx, hroom,
      Nat.div_add_mod, h.bitLen, List.set_append_right _ _ le_rfl, Nat.sub_self,
      List.set_cons_zero, List.append_assoc]
    have hbit : (b != 0) = true := by simpa using hb
    rw [hbit]
    rfl

theorem foldl_appendBit {α : Type} (f : α → UInt8) (xs : List α) (h : w.Holds bits) :
    (xs.foldl (fun w x => w.appendBit (f x)) w).Holds (bits ++ xs.map fun x => f x != 0) := by
  induction xs generalizing w bits with
  | nil => simpa using h
  | cons x xs ih =>
    have hnext := ih (h.appendBit (f x))
    rw [List.append_assoc] at hnext
    exact hnext

theorem writeBits (h : w.Holds bits) (value : BitVec 64) (n : Nat) :
    (w.writeBits value n).Holds (bits ++ bitsOf n value.toNat) := by
  have hbits : (List.range n).map (fun i =>
      UInt8.ofBitVec (((value >>> (n - 1 - i)) &&& 1).setWidth 8) != 0) =
        bitsOf n value.toNat := by
    rw [← map_testBit_range]
    exact List.map_congr_left fun i _ => shiftRight_and_one_ne_zero value (n - 1 - i)
  rw [← hbits]
  exact h.foldl_appendBit _ _

theorem extend (h : w.Holds bits) (haligned : w.bitLen % 8 = 0) (more : List UInt8) :
    (w.extend more (8 * more.length)).Holds (bits ++ more.flatMap byteBits) := by
  have hpad : ∀ n, n % 8 = 0 → padding n = [] := by
    intro n hn
    rw [padding, hn]
    rfl
  rw [h.bitLen] at haligned
  refine ⟨?_, ?_⟩
  · rw [List.length_append, length_flatMap_byteBits, ← h.bitLen]
    rfl
  · show (w.bytes ++ more).flatMap byteBits = _
    rw [List.flatMap_append, h.bytes, hpad _ haligned, List.append_nil, List.length_append,
      length_flatMap_byteBits, hpad _ (by omega), List.append_nil]

end BitWriter.Holds

/-! ## What a reader sees -/

theorem drop_flatMap_byteBits (bytes : List UInt8) (k : Nat) :
    (bytes.drop k).flatMap byteBits = (bytes.flatMap byteBits).drop (8 * k) := by
  induction bytes generalizing k with
  | nil => simp
  | cons b bytes ih =>
    cases k with
    | zero => rfl
    | succ k =>
      have hhead : (byteBits b).drop (8 * (k + 1)) = [] :=
        List.drop_of_length_le (by rw [length_byteBits]; omega)
      rw [List.drop_succ_cons, ih, List.flatMap_cons, List.drop_append, length_byteBits, hhead]
      rfl

theorem flatMap_getElem? (bytes : List UInt8) (i : Nat) (hi : i < 8 * bytes.length) :
    (bytes.flatMap byteBits)[i]? = some ((bytes.getD (i / 8) 0).toNat.testBit (7 - i % 8)) := by
  induction bytes generalizing i with
  | nil => exact absurd hi (Nat.not_lt_zero i)
  | cons b bytes ih =>
    rcases Nat.lt_or_ge i 8 with hlt | hge
    · rw [List.flatMap_cons, List.getElem?_append_left (by rw [length_byteBits]; exact hlt),
        Nat.div_eq_of_lt hlt, Nat.mod_eq_of_lt hlt, List.getD_cons_zero, byteBits]
      interval_cases i <;> rfl
    · obtain ⟨j, rfl⟩ := Nat.exists_eq_add_of_le hge
      rw [List.length_cons] at hi
      rw [List.flatMap_cons, List.getElem?_append_right (by rw [length_byteBits]; omega),
        length_byteBits, Nat.add_sub_cancel_left, ih j (by omega),
        show (8 + j) / 8 = j / 8 + 1 from by omega, show (8 + j) % 8 = j % 8 from by omega,
        List.getD_cons_succ]

theorem byte_shiftRight_toNat (b : UInt8) (k : Nat) (hk : k < 8) :
    ((b >>> UInt8.ofNat k) &&& 1).toNat = (b.toNat.testBit k).toNat := by
  have hmod : (UInt8.ofNat k).toNat % 8 = k := by
    rw [UInt8.toNat_ofNat']
    omega
  rw [UInt8.toNat_and, UInt8.toNat_shiftRight, hmod, UInt8.toNat_one, Nat.and_one_is_mod,
    Nat.testBit_eq_decide_div_mod_eq, Nat.shiftRight_eq_div_pow]
  rcases Nat.mod_two_eq_zero_or_one (b.toNat / 2 ^ k) with h | h <;> rw [h] <;> rfl

theorem byte_shiftRight_and_one (b : UInt8) (k : Nat) (hk : k < 8) :
    (((b >>> UInt8.ofNat k) &&& 1) != 0) = b.toNat.testBit k := by
  have hnat := byte_shiftRight_toNat b k hk
  cases hbit : b.toNat.testBit k
  · rw [hbit] at hnat
    have hzero : (b >>> UInt8.ofNat k) &&& 1 = 0 := UInt8.toNat_inj.mp hnat
    rw [hzero]
    rfl
  · rw [hbit] at hnat
    have hone : (b >>> UInt8.ofNat k) &&& 1 = 1 := UInt8.toNat_inj.mp hnat
    rw [hone]
    rfl

theorem byte_shiftRight_toBitVec (b : UInt8) (k : Nat) (hk : k < 8) :
    ((b >>> UInt8.ofNat k) &&& 1).toBitVec.setWidth 64 =
      (BitVec.ofBool (b.toNat.testBit k)).setWidth 64 := by
  have hnat := byte_shiftRight_toNat b k hk
  apply BitVec.eq_of_toNat_eq
  rw [BitVec.toNat_setWidth, BitVec.toNat_setWidth, UInt8.toNat_toBitVec, hnat, BitVec.toNat_ofBool]

/-- One round of the reading loop. -/
def shiftIn (out : BitVec 64) (b : Bool) : BitVec 64 :=
  (out <<< 1) ||| (BitVec.ofBool b).setWidth 64

theorem getLsbD_shiftIn (out : BitVec 64) (b : Bool) {j : Nat} (hj : j < 64) :
    (shiftIn out b).getLsbD j = if j = 0 then b else out.getLsbD (j - 1) := by
  rw [shiftIn, BitVec.getLsbD_or, BitVec.getLsbD_shiftLeft, BitVec.getLsbD_setWidth,
    BitVec.getLsbD_ofBool, decide_eq_true hj]
  rcases Nat.eq_zero_or_pos j with rfl | hpos
  · simp
  · rw [decide_eq_false (show ¬j < 1 by omega), decide_eq_false (show ¬j = 0 by omega),
      if_neg (by omega)]
    simp

theorem getLsbD_foldl_shiftIn (n x : Nat) (out : BitVec 64) {j : Nat} (hj : j < 64) :
    ((bitsOf n x).foldl shiftIn out).getLsbD j =
      if j < n then x.testBit j else out.getLsbD (j - n) := by
  induction n generalizing out with
  | zero => simp [bitsOf]
  | succ n ih =>
    rw [bitsOf, List.foldl_cons, ih]
    rcases Nat.lt_trichotomy j n with hlt | rfl | hgt
    · rw [if_pos hlt, if_pos (by omega)]
    · rw [if_neg (by omega), if_pos (by omega), getLsbD_shiftIn _ _ (by omega), if_pos (by omega)]
    · rw [if_neg (by omega), if_neg (by omega), getLsbD_shiftIn _ _ (by omega), if_neg (by omega)]
      congr 1

theorem foldl_shiftIn_bitsOf {value : BitVec 64} {n : Nat} (hvalue : value.toNat < 2 ^ n) :
    (bitsOf n value.toNat).foldl shiftIn 0 = value := by
  refine BitVec.eq_of_getLsbD_eq fun j hj => ?_
  rw [getLsbD_foldl_shiftIn n _ 0 hj]
  split
  · exact BitVec.testBit_toNat value
  · rw [← BitVec.testBit_toNat value, Nat.testBit_lt_two_pow
      (hvalue.trans_le (Nat.pow_le_pow_right (by decide) (by omega)))]
    simp

/-- The bits a reader has left, out of those of its bytes. -/
structure BitReader.Sees (r : BitReader) (bits : List Bool) : Prop where
  pos_le : r.pos + bits.length = r.bitLen
  room : r.bitLen ≤ 8 * r.bytes.length
  bits : ((r.bytes.flatMap byteBits).take r.bitLen).drop r.pos = bits

namespace BitReader.Sees

variable {r : BitReader} {bits : List Bool}

theorem of_payload (p : BitPayload) {pos : Nat} (hpos : pos ≤ p.bitLen) :
    (BitReader.mk p.bytes p.bitLen pos).Sees (p.bits.drop pos) := by
  have hlen := p.length_bytes
  refine ⟨?_, ?_, rfl⟩
  · rw [List.length_drop, p.length_bits]
    show pos + (p.bitLen - pos) = p.bitLen
    omega
  · show p.bitLen ≤ 8 * p.bytes.length
    omega

theorem readBit {b : Bool} (h : r.Sees (b :: bits)) :
    ∃ bit, r.readBit = some (bit, { r with pos := r.pos + 1 }) ∧ (bit != 0) = b ∧
      bit.toBitVec.setWidth 64 = (BitVec.ofBool b).setWidth 64 ∧
      BitReader.Sees { r with pos := r.pos + 1 } bits := by
  have hpos := h.pos_le
  have hroom := h.room
  rw [List.length_cons] at hpos
  have hlt : r.pos < r.bitLen := by omega
  -- the bit at the position is the first of those seen
  have hbit : (r.bytes.getD (r.pos / 8) 0).toNat.testBit (7 - r.pos % 8) = b := by
    have hhead := congrArg (fun l => l[0]?) h.bits
    simp only [List.getElem?_drop, Nat.add_zero, List.getElem?_take, if_pos hlt,
      List.getElem?_cons_zero] at hhead
    rw [flatMap_getElem? _ _ (by omega)] at hhead
    exact Option.some.inj hhead
  refine ⟨_, if_neg (by omega), ?_, ?_, ⟨?_, hroom, ?_⟩⟩
  · rw [← hbit]
    exact byte_shiftRight_and_one _ _ (by omega)
  · rw [← hbit]
    exact byte_shiftRight_toBitVec _ _ (by omega)
  · show r.pos + 1 + bits.length = r.bitLen
    omega
  · show ((r.bytes.flatMap byteBits).take r.bitLen).drop (r.pos + 1) = bits
    rw [← List.drop_drop, h.bits, List.drop_one, List.tail_cons]

theorem readLoop (xs : List Bool) (h : r.Sees (xs ++ bits)) (out : BitVec 64) :
    r.readLoop out xs.length = some (xs.foldl shiftIn out, { r with pos := r.pos + xs.length }) ∧
      BitReader.Sees { r with pos := r.pos + xs.length } bits := by
  induction xs generalizing r out with
  | nil => exact ⟨rfl, h⟩
  | cons b xs ih =>
    obtain ⟨bit, hbit, -, hword, hnext⟩ := h.readBit
    obtain ⟨hloop, hrest⟩ := ih hnext (shiftIn out b)
    have hpos : r.pos + 1 + xs.length = r.pos + (b :: xs).length := by
      rw [List.length_cons]
      omega
    rw [hpos] at hloop hrest
    refine ⟨?_, hrest⟩
    show (r.readBit.bind fun p => p.2.readLoop ((out <<< 1) ||| p.1.toBitVec.setWidth 64)
      xs.length) = _
    rw [hbit, Option.bind_some, hword]
    exact hloop

theorem readBits {value : BitVec 64} {n : Nat} (hvalue : value.toNat < 2 ^ n)
    (h : r.Sees (bitsOf n value.toNat ++ bits)) :
    r.readBits n = some (value, { r with pos := r.pos + n }) ∧
      BitReader.Sees { r with pos := r.pos + n } bits := by
  obtain ⟨hloop, hrest⟩ := readLoop _ h 0
  rw [length_bitsOf] at hloop hrest
  have hpos := h.pos_le
  rw [List.length_append, length_bitsOf] at hpos
  refine ⟨?_, hrest⟩
  rw [BitReader.readBits, BitReader.remaining, if_neg (by omega), hloop,
    foldl_shiftIn_bitsOf hvalue]

theorem copyBits (xs : List Bool) (h : r.Sees (xs ++ bits)) {w : BitWriter} {written : List Bool}
    (hw : w.Holds written) : ∃ w', copyBits r w xs.length = some w' ∧ w'.Holds (written ++ xs) := by
  induction xs generalizing r w written with
  | nil => exact ⟨w, rfl, by simpa using hw⟩
  | cons b xs ih =>
    obtain ⟨bit, hbit, hb, -, hnext⟩ := h.readBit
    have happ := hw.appendBit bit
    rw [hb] at happ
    obtain ⟨w', hcopy, hholds⟩ := ih hnext happ
    rw [List.append_assoc] at hholds
    refine ⟨w', ?_, hholds⟩
    show (r.readBit.bind fun p => Bitstr.copyBits p.2 (w.appendBit p.1) xs.length) = some w'
    rw [hbit]
    exact hcopy

end BitReader.Sees

/-! ## Swapping bytes back -/

theorem swapBytes_foldl (value : BitVec 64) {count m : Nat} (hm : m ≤ count)
    {j : Nat} (hj : j < 64) : ((List.range m).foldl (fun acc i =>
      acc ||| (((value >>> (i * 8)) &&& 0xff) <<< ((count - 1 - i) * 8))) (0 : BitVec 64)).getLsbD
        j = (decide (count ≤ j / 8 + m ∧ j / 8 < count) &&
          value.getLsbD (8 * (count - 1 - j / 8) + j % 8)) := by
  induction m with
  | zero =>
    have hnone : ¬(count ≤ j / 8 + 0 ∧ j / 8 < count) := by omega
    rw [decide_eq_false hnone]
    simp
  | succ m ih =>
    have hmask : ∀ i, (0xff : BitVec 64).getLsbD i = decide (i < 8) := by
      intro i
      rcases Nat.lt_or_ge i 64 with hi | hi
      · interval_cases i <;> rfl
      · rw [BitVec.getLsbD_of_ge _ _ hi, decide_eq_false (by omega)]
    rw [List.range_succ, List.foldl_append, List.foldl_cons, List.foldl_nil, BitVec.getLsbD_or,
      ih (by omega), BitVec.getLsbD_shiftLeft, BitVec.getLsbD_and, BitVec.getLsbD_ushiftRight,
      hmask]
    -- byte `m` of the word lands at byte `count - 1 - m`
    rcases Nat.lt_trichotomy (j / 8) (count - 1 - m) with hlt | heq | hgt
    · rw [decide_eq_false (show ¬(count ≤ j / 8 + m ∧ j / 8 < count) by omega),
        decide_eq_false (show ¬(count ≤ j / 8 + (m + 1) ∧ j / 8 < count) by omega),
        decide_eq_true (show j < (count - 1 - m) * 8 by omega)]
      simp
    · rw [decide_eq_false (show ¬(count ≤ j / 8 + m ∧ j / 8 < count) by omega),
        decide_eq_true (show count ≤ j / 8 + (m + 1) ∧ j / 8 < count by omega),
        decide_eq_false (show ¬j < (count - 1 - m) * 8 by omega), decide_eq_true hj,
        decide_eq_true (show j - (count - 1 - m) * 8 < 8 by omega),
        show m * 8 + (j - (count - 1 - m) * 8) = 8 * (count - 1 - j / 8) + j % 8 by omega]
      simp
    · rw [decide_eq_false (show ¬j - (count - 1 - m) * 8 < 8 by omega), Bool.and_false,
        Bool.and_false, Bool.or_false]
      congr 1
      exact decide_eq_decide.mpr (by omega)

theorem getLsbD_swapBytes (value : BitVec 64) {count j : Nat} (hj : j < 64) :
    (swapBytes value count).getLsbD j =
      (decide (j / 8 < count) && value.getLsbD (8 * (count - 1 - j / 8) + j % 8)) := by
  rw [swapBytes, swapBytes_foldl value le_rfl hj]
  congr 1
  exact decide_eq_decide.mpr (by omega)

theorem swapBytes_lt (value : BitVec 64) (count : Nat) :
    (swapBytes value count).toNat < 2 ^ (8 * count) := by
  refine Nat.lt_pow_two_of_testBit _ fun j hj => ?_
  rw [BitVec.testBit_toNat]
  rcases Nat.lt_or_ge j 64 with hlt | hge
  · rw [getLsbD_swapBytes value hlt, decide_eq_false (by omega), Bool.false_and]
  · exact BitVec.getLsbD_of_ge _ _ hge

theorem swapBytes_swapBytes {value : BitVec 64} {count : Nat} (hcount : count ≤ 8)
    (hvalue : value.toNat < 2 ^ (8 * count)) : swapBytes (swapBytes value count) count = value := by
  refine BitVec.eq_of_getLsbD_eq fun j hj => ?_
  rw [getLsbD_swapBytes _ hj]
  rcases Nat.lt_or_ge (j / 8) count with hlt | hge
  · rw [decide_eq_true hlt, Bool.true_and, getLsbD_swapBytes value (by omega),
      decide_eq_true (by omega), Bool.true_and]
    congr 1
    omega
  · rw [decide_eq_false (by omega), Bool.false_and, ← BitVec.testBit_toNat]
    refine (Nat.testBit_lt_two_pow (hvalue.trans_le ?_)).symm
    exact Nat.pow_le_pow_right (by decide) (by omega)

section Endian

variable (hostIsLittleEndian : Bool) {value : BitVec 64} {n : Nat} (endian : Endian)

theorem applyEndianForWrite_lt (hvalue : value.toNat < 2 ^ n) :
    (applyEndianForWrite hostIsLittleEndian value n endian).toNat < 2 ^ n := by
  rw [applyEndianForWrite]
  split
  · exact hvalue
  simp only
  split
  · exact hvalue
  split
  · exact hvalue
  · have hwhole : 8 * (n / 8) = n := by omega
    have hlt := swapBytes_lt value (n / 8)
    rwa [hwhole] at hlt

theorem applyEndianForRead_write (hvalue : value.toNat < 2 ^ n) :
    applyEndianForRead hostIsLittleEndian
      (applyEndianForWrite hostIsLittleEndian value n endian) n endian = value := by
  simp only [applyEndianForRead, applyEndianForWrite]
  split
  · rfl
  split
  · rfl
  split
  · rfl
  · have hwhole : 8 * (n / 8) = n := by omega
    exact swapBytes_swapBytes (by omega) (by rwa [hwhole])

end Endian

theorem signExtend_eq {value : BitVec 64} {n : Nat} (hn : 0 < n) (hn' : n < 64)
    (hvalue : value.toNat < 2 ^ n) : signExtend value n = (value.setWidth n).signExtend 64 := by
  have hhigh : ∀ j, n ≤ j → value.getLsbD j = false := by
    intro j hj
    rw [← BitVec.testBit_toNat]
    exact Nat.testBit_lt_two_pow (hvalue.trans_le (Nat.pow_le_pow_right (by decide) hj))
  have hsign : (value &&& ((1 : BitVec 64) <<< (n - 1)) ≠ 0) ↔ value.getLsbD (n - 1) = true := by
    rw [show (1 : BitVec 64) = 1#64 from rfl, ← BitVec.twoPow_eq, BitVec.and_twoPow]
    cases value.getLsbD (n - 1) with
    | false => simp
    | true =>
      simp only [if_true, iff_true]
      intro hzero
      have hnat := congrArg BitVec.toNat hzero
      rw [BitVec.toNat_twoPow_of_lt (by omega)] at hnat
      exact absurd hnat (Nat.two_pow_pos (n - 1)).ne'
  have hmsb : (value.setWidth n).msb = value.getLsbD (n - 1) := by
    rw [BitVec.msb_setWidth]
    simp [hn]
  refine BitVec.eq_of_getLsbD_eq fun j hj => ?_
  rw [signExtend, if_neg (by omega), BitVec.getLsbD_signExtend, decide_eq_true hj, hmsb,
    BitVec.getLsbD_setWidth, Bool.true_and]
  cases hbit : value.getLsbD (n - 1) with
  | false =>
    rw [if_neg (by rw [hsign, hbit]; decide)]
    split
    · rw [decide_eq_true ‹_›, Bool.true_and]
    · exact hhigh j (by omega)
  | true =>
    rw [if_pos (hsign.mpr hbit), BitVec.getLsbD_or, BitVec.getLsbD_shiftLeft]
    rcases Nat.lt_or_ge j n with hlt | hge
    · rw [decide_eq_true hlt, if_pos hlt]
      simp
    · rw [decide_eq_false (show ¬j < n by omega), if_neg (by omega), hhigh j hge,
        decide_eq_true hj, BitVec.getLsbD_not, decide_eq_true (show j - n < 64 by omega)]
      simp

theorem toInt_signExtend {value : BitVec 64} {n : Nat} (hn : n ≤ 64)
    (hvalue : value.toNat < 2 ^ n) :
    (signExtend value n).toInt = (value.toNat : Int).bmod (2 ^ n) := by
  rcases Nat.eq_zero_or_pos n with rfl | hpos
  · have hzero : value = 0 := BitVec.eq_of_toNat_eq (by simpa using hvalue)
    subst hzero
    rfl
  rcases Nat.lt_or_ge n 64 with hlt | hge
  · rw [signExtend_eq hpos hlt hvalue, BitVec.toInt_signExtend_of_le hlt.le,
      BitVec.toInt_eq_toNat_bmod, BitVec.toNat_setWidth, Nat.mod_eq_of_lt hvalue]
  · obtain rfl : n = 64 := by omega
    rw [signExtend, if_pos (.inr le_rfl), BitVec.toInt_eq_toNat_bmod]

end Fz.Bitstr
