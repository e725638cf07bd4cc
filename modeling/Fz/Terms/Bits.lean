import Fz.Base.LexBits
import Mathlib.Tactic.IntervalCases

/-!
# Bitstrings, inline and shared

A binary is one language value with two representations: an inline object with its bit length and
bytes, and a stub that views a suffix of a shared buffer.  Both are read through the same pair of
accessors, a bit length and a byte pointer; bits after the last one in the last byte are padding.

`bitstringCmp` compares whole bytes, then the bits of the last common byte under a mask, then the
lengths.  It is the lexicographic order of the bits (`bitstringCmp_eq`), so neither the
representation nor the padding is visible in it.
-/

namespace Fz.Terms

open Std Fz.Base

/-- What `bitstring_bit_len` and `bitstring_byte_ptr` give of an object: a bit length and the bytes
that hold it. -/
structure BitPayload where
  bitLen : Nat
  bytes : List UInt8
  length_bytes : bytes.length = (bitLen + 7) / 8
  deriving DecidableEq

/-- A stub over a shared buffer, viewing it from a byte offset to its end. -/
structure ProcBin where
  shared : BitPayload
  byteOffset : Nat
  offset_le : byteOffset * 8 ≤ shared.bitLen
  deriving DecidableEq

/-- The view of a stub: the length is derived from the offset. -/
def ProcBin.view (p : ProcBin) : BitPayload where
  bitLen := p.shared.bitLen - p.byteOffset * 8
  bytes := p.shared.bytes.drop p.byteOffset
  length_bytes := by
    have := p.offset_le
    rw [List.length_drop, p.shared.length_bytes]
    omega

def compareByte (a b : UInt8) : Ordering := compare a.toNat b.toNat

/-- `u8::MAX << (8 - n)`: the top `n` bits of a byte. -/
def topMask (n : Nat) : UInt8 := 255 <<< UInt8.ofNat (8 - n)

/-- The order of two bitstrings. -/
def bitstringCmp (a b : BitPayload) : Ordering :=
  let commonBits := min a.bitLen b.bitLen
  let commonBytes := commonBits / 8
  (List.compareLex compareByte (a.bytes.take commonBytes) (b.bytes.take commonBytes)).then
    ((if commonBits % 8 ≠ 0 then
        let mask := topMask (commonBits % 8)
        compareByte (a.bytes.getD commonBytes 0 &&& mask) (b.bytes.getD commonBytes 0 &&& mask)
      else .eq).then
    (compare a.bitLen b.bitLen))

/-! ## Bits -/

def byteBits (b : UInt8) : List Bool := bitsOf 8 b.toNat

@[simp] theorem length_byteBits (b : UInt8) : (byteBits b).length = 8 := length_bitsOf ..

/-- The bits of a bitstring, padding dropped. -/
def BitPayload.bits (p : BitPayload) : List Bool := (p.bytes.flatMap byteBits).take p.bitLen

theorem length_flatMap_byteBits (bytes : List UInt8) :
    (bytes.flatMap byteBits).length = 8 * bytes.length := by
  induction bytes with
  | nil => rfl
  | cons b bytes ih =>
    simp only [List.flatMap_cons, List.length_append, length_byteBits, ih, List.length_cons]
    omega

theorem BitPayload.length_bits (p : BitPayload) : p.bits.length = p.bitLen := by
  have := p.length_bytes
  rw [bits, List.length_take, length_flatMap_byteBits]
  omega

theorem compareByte_eq (a b : UInt8) :
    compareByte a b = List.compareLex compare (byteBits a) (byteBits b) :=
  compare_bitsOf 8 _ _ a.toNat_lt b.toNat_lt

theorem compareLex_bytes (as bs : List UInt8) (h : as.length = bs.length) :
    List.compareLex compareByte as bs
      = List.compareLex compare (as.flatMap byteBits) (bs.flatMap byteBits) := by
  induction as generalizing bs with
  | nil =>
    obtain rfl : bs = [] := List.eq_nil_of_length_eq_zero h.symm
    rfl
  | cons a as ih =>
    cases bs with
    | nil => simp at h
    | cons b bs =>
      simp only [List.length_cons, Nat.add_right_cancel_iff] at h
      rw [List.compareLex_cons_cons, List.flatMap_cons, List.flatMap_cons,
        compareLex_append _ _ _ _ (by simp only [length_byteBits]), ih bs h, compareByte_eq]

theorem testBit_topMask : ∀ n < 8, n ≠ 0 → ∀ i < 8,
    (topMask n).toNat.testBit i = decide (8 - n ≤ i) := by
  decide

theorem byteBits_mask (b : UInt8) {n : Nat} (hn : n ≠ 0) (hn' : n < 8) :
    byteBits (b &&& topMask n) = (byteBits b).take n ++ List.replicate (8 - n) false := by
  have hand : ∀ i < 8, (b &&& topMask n).toNat.testBit i
      = (b.toNat.testBit i && decide (8 - n ≤ i)) := by
    intro i hi
    rw [UInt8.toNat_and, Nat.testBit_and, testBit_topMask n hn' hn i hi]
  simp only [byteBits, bitsOf, hand 0, hand 1, hand 2, hand 3, hand 4, hand 5, hand 6, hand 7,
    Nat.reduceLT]
  interval_cases n
  · exact absurd rfl hn
  all_goals simp [List.replicate]

theorem compareByte_mask (a b : UInt8) {n : Nat} (hn : n ≠ 0) (hn' : n < 8) :
    compareByte (a &&& topMask n) (b &&& topMask n)
      = List.compareLex compare ((byteBits a).take n) ((byteBits b).take n) := by
  have hself : List.compareLex compare (List.replicate (8 - n) false) (List.replicate (8 - n) false)
      = .eq := ReflCmp.compare_self
  rw [compareByte_eq, byteBits_mask a hn hn', byteBits_mask b hn hn',
    compareLex_append _ _ _ _ (by simp only [List.length_take, length_byteBits]), hself,
    Ordering.then_eq]

theorem take_flatMap_byteBits (bytes : List UInt8) (n : Nat) (h : n ≤ 8 * bytes.length) :
    (bytes.flatMap byteBits).take n = (bytes.take (n / 8)).flatMap byteBits ++
      if n % 8 ≠ 0 then (byteBits (bytes.getD (n / 8) 0)).take (n % 8) else [] := by
  induction bytes generalizing n with
  | nil =>
    obtain rfl : n = 0 := by simpa using h
    rfl
  | cons b bytes ih =>
    rcases Nat.lt_or_ge n 8 with hlt | hge
    · rw [Nat.div_eq_of_lt hlt, Nat.mod_eq_of_lt hlt, List.flatMap_cons, List.take_zero,
        List.flatMap_nil, List.nil_append, List.getD_cons_zero,
        List.take_append_of_le_length (by simp only [length_byteBits]; omega)]
      split
      · rfl
      · obtain rfl : n = 0 := by omega
        rfl
    · obtain ⟨m, rfl⟩ := Nat.exists_eq_add_of_le hge
      simp only [List.length_cons] at h
      have hdiv : (8 + m) / 8 = m / 8 + 1 := by omega
      have hmod : (8 + m) % 8 = m % 8 := by omega
      rw [hdiv, hmod, List.take_succ_cons, List.flatMap_cons, List.flatMap_cons,
        List.getD_cons_succ, List.append_assoc, ← ih m (by omega), List.take_append,
        length_byteBits, Nat.add_sub_cancel_left, List.take_of_length_le (by simp)]

theorem bitstringCmp_eq (a b : BitPayload) :
    bitstringCmp a b = List.compareLex compare a.bits b.bits := by
  have ha := a.length_bytes
  have hb := b.length_bytes
  rw [compareLex_take_min, a.length_bits, b.length_bits, BitPayload.bits, BitPayload.bits,
    List.take_take, List.take_take, Nat.min_eq_left (Nat.min_le_left ..),
    Nat.min_eq_left (Nat.min_le_right ..)]
  simp only [bitstringCmp]
  generalize hc : min a.bitLen b.bitLen = c
  rw [take_flatMap_byteBits a.bytes c (by omega), take_flatMap_byteBits b.bytes c (by omega),
    compareLex_append _ _ _ _ (by
      simp only [length_flatMap_byteBits, List.length_take]
      omega),
    compareLex_bytes _ _ (by
      simp only [List.length_take]
      omega), Ordering.then_assoc]
  congr 2
  split
  · rename_i hn
    exact compareByte_mask _ _ hn (Nat.mod_lt _ (by decide))
  · rfl

/-- The inline bits `101` with dirty padding, and the same bits at offset one of a shared buffer. -/
example : bitstringCmp ⟨3, [0b10111111], rfl⟩
    (ProcBin.mk ⟨11, [7, 0b10100000], rfl⟩ 1 (by decide)).view = .eq := by decide

end Fz.Terms
