import Fz.Bitstr.Field

/-!
# Reading back what was written

Every field appends its bits to those the builder holds (`writeFieldValue_holds`), whichever path
the writer takes, and the reader that stands before these bits takes exactly them and gives the
field's value back (`readFieldRef_sees`).  A whole expression and the pattern with the same fields
follow by induction (`readFields_writeFields`).

Two things do not come back as they were written.  A binary field with no size takes everything
that is left, so the reader admits it at the end only.  Integers are words of 64 bits, so an
unsigned field of full width comes back with the sign of the word.
-/

namespace Fz.Bitstr

open Fz.Base Fz.Terms

/-! ## The packed specification -/

theorem toNat_or_shiftLeft {a b : BitVec 64} {k : Nat} (ha : a.toNat < 2 ^ k)
    (hb : b.toNat * 2 ^ k < 2 ^ 64) : (a ||| b <<< k).toNat = a.toNat + 2 ^ k * b.toNat := by
  rw [BitVec.toNat_or, BitVec.toNat_shiftLeft, Nat.shiftLeft_eq, Nat.mod_eq_of_lt hb, Nat.or_comm,
    Nat.mul_comm, ← Nat.two_pow_add_eq_or_of_lt ha, Nat.add_comm]

theorem toNat_shiftRight_mask (s : BitVec 64) (k m : Nat) (mask : BitVec 64)
    (hmask : mask.toNat = 2 ^ m - 1) (hm : m ≤ 32) :
    (((s >>> k) &&& mask).setWidth 32).toNat = s.toNat / 2 ^ k % 2 ^ m := by
  have hlt : s.toNat / 2 ^ k % 2 ^ m < 2 ^ 32 :=
    (Nat.mod_lt _ (Nat.two_pow_pos m)).trans_le (Nat.pow_le_pow_right (by decide) hm)
  rw [BitVec.toNat_setWidth, BitVec.toNat_and, BitVec.toNat_ushiftRight, hmask,
    Nat.and_two_pow_sub_one_eq_mod, Nat.shiftRight_eq_div_pow, Nat.mod_eq_of_lt hlt]

theorem toNat_flag (b : Bool) : (flag b).toNat = b.toNat := by
  cases b <;> rfl

theorem flag_ne_zero (b : Bool) : (flag b != 0) = b := by
  cases b <;> rfl

theorem toNat_mask (x : BitVec 32) (mask : BitVec 64) {m : Nat} (hmask : mask.toNat = 2 ^ m - 1) :
    (x.setWidth 64 &&& mask).toNat = x.toNat % 2 ^ m := by
  have hx := x.isLt
  rw [BitVec.toNat_and, BitVec.toNat_setWidth, hmask, Nat.and_two_pow_sub_one_eq_mod,
    Nat.mod_eq_of_lt (show x.toNat < 2 ^ 64 by omega)]

section Packing

variable (tyTag sizePresent unit endianTag signed isLast : BitVec 32)

theorem toNat_fzBsFieldSpec : (fzBsFieldSpec tyTag sizePresent unit endianTag signed isLast).toNat =
      tyTag.toNat % 2 ^ 3 + 2 ^ 3 * (sizePresent != 0).toNat + 2 ^ 4 * (unit.toNat % 2 ^ 16) +
        2 ^ 20 * (endianTag.toNat % 2 ^ 2) + 2 ^ 22 * (signed != 0).toNat +
        2 ^ 23 * (isLast != 0).toNat := by
  have hbool : ∀ b : Bool, ((BitVec.ofBool b).setWidth 64).toNat = b.toNat := by
    intro b
    cases b <;> rfl
  have hty : ((tyTag.setWidth 64 &&& 0x7) <<< 0).toNat = tyTag.toNat % 2 ^ 3 := by
    rw [BitVec.shiftLeft_zero, toNat_mask _ _ (m := 3) rfl]
  have hunit : (unit.setWidth 64 &&& 0xffff).toNat = unit.toNat % 2 ^ 16 := toNat_mask _ _ rfl
  have hendian : (endianTag.setWidth 64 &&& 0x3).toNat = endianTag.toNat % 2 ^ 2 :=
    toNat_mask _ _ rfl
  have hp := Bool.toNat_le (sizePresent != 0)
  have hs := Bool.toNat_le (signed != 0)
  have hl := Bool.toNat_le (isLast != 0)
  rw [fzBsFieldSpec]
  -- each field starts where the ones below it end
  have h1 := toNat_or_shiftLeft (a := (tyTag.setWidth 64 &&& 0x7) <<< 0) (k := 3)
    (b := (BitVec.ofBool (sizePresent != 0)).setWidth 64) (by omega) (by rw [hbool]; omega)
  rw [hty, hbool] at h1
  have h2 := toNat_or_shiftLeft (k := 4) (b := unit.setWidth 64 &&& 0xffff)
    (h1.trans_lt (by omega)) (by omega)
  rw [h1, hunit] at h2
  have h3 := toNat_or_shiftLeft (k := 20) (b := endianTag.setWidth 64 &&& 0x3)
    (h2.trans_lt (by omega)) (by omega)
  rw [h2, hendian] at h3
  have h4 := toNat_or_shiftLeft (k := 22) (b := (BitVec.ofBool (signed != 0)).setWidth 64)
    (h3.trans_lt (by omega)) (by rw [hbool]; omega)
  rw [h3, hbool] at h4
  have h5 := toNat_or_shiftLeft (k := 23) (b := (BitVec.ofBool (isLast != 0)).setWidth 64)
    (h4.trans_lt (by omega)) (by rw [hbool]; omega)
  rw [h4, hbool] at h5
  exact h5

theorem decode_fzBsFieldSpec :
    decodeBsFieldSpec (fzBsFieldSpec tyTag sizePresent unit endianTag signed isLast) =
      ⟨BitVec.ofNat 32 (tyTag.toNat % 2 ^ 3), flag (sizePresent != 0),
        BitVec.ofNat 32 (unit.toNat % 2 ^ 16), BitVec.ofNat 32 (endianTag.toNat % 2 ^ 2),
        flag (signed != 0), flag (isLast != 0)⟩ := by
  have hpack := toNat_fzBsFieldSpec tyTag sizePresent unit endianTag signed isLast
  have hp := Bool.toNat_le (sizePresent != 0)
  have hs := Bool.toNat_le (signed != 0)
  have hl := Bool.toNat_le (isLast != 0)
  rw [decodeBsFieldSpec]
  congr 1 <;> apply BitVec.eq_of_toNat_eq
  · rw [toNat_shiftRight_mask _ 0 3 _ rfl (by decide), hpack, BitVec.toNat_ofNat]
    omega
  · rw [toNat_shiftRight_mask _ 3 1 _ rfl (by decide), hpack, toNat_flag]
    omega
  · rw [toNat_shiftRight_mask _ 4 16 _ rfl (by decide), hpack, BitVec.toNat_ofNat]
    omega
  · rw [toNat_shiftRight_mask _ 20 2 _ rfl (by decide), hpack, BitVec.toNat_ofNat]
    omega
  · rw [toNat_shiftRight_mask _ 22 1 _ rfl (by decide), hpack, toNat_flag]
    omega
  · rw [toNat_shiftRight_mask _ 23 1 _ rfl (by decide), hpack, toNat_flag]
    omega

end Packing

theorem decode_pack (f : FieldSpec) (isLast : Bool) (hunit : f.unit.toNat < 2 ^ 16) :
    decodeBsFieldSpec (f.pack isLast) =
      ⟨f.ty.tag, flag f.size.isSome, f.unit, f.endian.tag, flag f.signed, flag isLast⟩ := by
  have hty : BitVec.ofNat 32 (f.ty.tag.toNat % 2 ^ 3) = f.ty.tag := by cases f.ty <;> rfl
  have hendian : BitVec.ofNat 32 (f.endian.tag.toNat % 2 ^ 2) = f.endian.tag := by
    cases f.endian <;> rfl
  rw [FieldSpec.pack, decode_fzBsFieldSpec, flag_ne_zero, flag_ne_zero, flag_ne_zero, hty, hendian,
    Nat.mod_eq_of_lt hunit, BitVec.ofNat_toNat, BitVec.setWidth_eq]

theorem readFieldRef_pack (hostIsLittleEndian : Bool) (r : Reader) (f : FieldSpec) (isLast : Bool)
    (hunit : f.unit.toNat < 2 ^ 16) :
    readFieldRef hostIsLittleEndian r (f.pack isLast) (f.size.getD 0) =
      readFieldBits hostIsLittleEndian r f.ty f.size f.unit f.endian f.signed isLast := by
  have hty : decodeBitType f.ty.tag = some f.ty := by cases f.ty <;> rfl
  have hendian : decodeEndian f.endian.tag = some f.endian := by cases f.endian <;> rfl
  have hsize : (if flag f.size.isSome ≠ 0 then some (f.size.getD 0) else none) = f.size := by
    cases f.size <;> rfl
  simp only [readFieldRef, decode_pack f isLast hunit, hty, hendian, hsize, flag_ne_zero,
    Option.bind_eq_bind, Option.bind_some]

/-! ## Allocation keeps the bits -/

theorem payloadOf_bits {bytes : List UInt8} {n : Nat} (hlen : bytes.length = (n + 7) / 8) :
    (payloadOf bytes n).bits = (bytes.flatMap byteBits).take n := by
  show ((bytes.takeD ((n + 7) / 8) 0).flatMap byteBits).take n = _
  rw [List.takeD_eq_take 0 hlen.ge, List.take_of_length_le hlen.le]

theorem allocBitstring_bits {bytes : List UInt8} {n : Nat} (hlen : bytes.length = (n + 7) / 8) :
    (allocBitstring bytes n).payload.bits = (bytes.flatMap byteBits).take n := by
  rw [allocBitstring]
  split
  · show ((((payloadOf bytes n).bytes.drop 0).flatMap byteBits).take (n - 0 * 8)) = _
    rw [List.drop_zero, Nat.zero_mul, Nat.sub_zero]
    exact payloadOf_bits hlen
  · exact payloadOf_bits hlen

theorem BitWriter.Holds.allocBitstring_bits {w : BitWriter} {bits : List Bool} (h : w.Holds bits) :
    (allocBitstring w.bytes w.bitLen).payload.bits = bits := by
  rw [Bitstr.allocBitstring_bits h.length_bytes, h.bytes, h.bitLen, List.take_left']
  rfl

theorem take_flatMap_byteBits_whole (bytes : List UInt8) (k : Nat) :
    (bytes.take k).flatMap byteBits = (bytes.flatMap byteBits).take (8 * k) := by
  induction bytes generalizing k with
  | nil => simp
  | cons b bytes ih =>
    cases k with
    | zero => rfl
    | succ k =>
      have hhead : (byteBits b).take (8 * (k + 1)) = byteBits b :=
        List.take_of_length_le (by rw [length_byteBits]; omega)
      rw [List.take_succ_cons, List.flatMap_cons, ih, List.flatMap_cons, List.take_append,
        length_byteBits, hhead]
      rfl

theorem allocBitstringSuffix_bits (stub : ProcBin) (k : Nat) (hk : 8 * k ≤ stub.view.bitLen) :
    ∃ b, allocBitstringSuffix stub.shared (stub.byteOffset + k) = some b ∧
      b.payload.bits = stub.view.bits.drop (8 * k) := by
  have hoff := stub.offset_le
  have hlen := stub.shared.length_bytes
  have hview : stub.view.bitLen = stub.shared.bitLen - stub.byteOffset * 8 := rfl
  -- either way the bits are those of the buffer from the offset on
  have hbits : ∀ n, n = stub.shared.bitLen - (stub.byteOffset + k) * 8 →
      ((stub.shared.bytes.drop (stub.byteOffset + k)).flatMap byteBits).take n =
        stub.view.bits.drop (8 * k) := by
    rintro n rfl
    show _ = (((stub.shared.bytes.drop stub.byteOffset).flatMap byteBits).take
      (stub.shared.bitLen - stub.byteOffset * 8)).drop (8 * k)
    rw [List.drop_take, drop_flatMap_byteBits, drop_flatMap_byteBits, List.drop_drop]
    congr 1
    · omega
    · congr 1
      omega
  rw [allocBitstringSuffix, if_neg (by omega)]
  split
  · exact ⟨_, rfl, hbits _ rfl⟩
  · refine ⟨_, rfl, ?_⟩
    rw [allocBitstring_bits (by rw [List.length_drop]; omega)]
    exact hbits _ rfl

/-! ## What a field writes -/

section Host

variable {hostIsLittleEndian : Bool}

theorem toNat_maskTo (n : BitVec 64) {total : Nat} (htotal : total ≤ 64) :
    (maskTo n total).toNat = n.toNat % 2 ^ total := by
  rw [maskTo]
  split
  · have hlt : 2 ^ total < 2 ^ 64 := Nat.pow_lt_pow_right (by decide) ‹_›
    have hpos := Nat.two_pow_pos total
    have hone : ((1 : BitVec 64) <<< total).toNat = 2 ^ total := by
      rw [BitVec.toNat_shiftLeft, Nat.shiftLeft_eq]
      show 1 * 2 ^ total % 2 ^ 64 = 2 ^ total
      rw [Nat.one_mul, Nat.mod_eq_of_lt hlt]
    have hmask : ((1 : BitVec 64) <<< total - 1).toNat = 2 ^ total - 1 := by
      rw [BitVec.toNat_sub_of_le, hone]
      · rfl
      · rw [BitVec.le_def, hone]
        exact hpos
    rw [BitVec.toNat_and, hmask, Nat.and_two_pow_sub_one_eq_mod]
  · obtain rfl : total = 64 := by omega
    exact (Nat.mod_eq_of_lt n.isLt).symm

theorem maskTo_lt (n : BitVec 64) {total : Nat} (htotal : total ≤ 64) :
    (maskTo n total).toNat < 2 ^ total := by
  rw [toNat_maskTo n htotal]
  exact Nat.mod_lt _ (Nat.two_pow_pos total)

/-- The bits of a field: the word of an integer in its byte order, or a start of the source. -/
inductive Encodes (hostIsLittleEndian : Bool) (f : FieldSpec) : FieldValue → List Bool → Prop
  | int (hty : f.ty = .integer) (htotal : f.total ≤ 64) (n : BitVec 64) :
      Encodes hostIsLittleEndian f (.int n) (bitsOf f.total
        (applyEndianForWrite hostIsLittleEndian (maskTo n f.total) f.total f.endian).toNat)
  | bitstring (hty : f.ty ≠ .integer) (b : Bitstring)
      (hneeded : f.neededBits b.payload.bitLen ≤ b.payload.bitLen) :
      Encodes hostIsLittleEndian f (.bitstring b)
        (b.payload.bits.take (f.neededBits b.payload.bitLen))

theorem writeBinary_holds {w w' : BitWriter} {bits : List Bool} {f : FieldSpec} {src : BitPayload}
    (hw : w.Holds bits) (hwrite : writeBinary w f src = some w') :
    f.neededBits src.bitLen ≤ src.bitLen ∧
      w'.Holds (bits ++ src.bits.take (f.neededBits src.bitLen)) := by
  have hlen := src.length_bytes
  rw [writeBinary] at hwrite
  generalize f.neededBits src.bitLen = needed at hwrite ⊢
  split at hwrite
  case isFalse => exact nomatch hwrite
  rename_i hneeded
  refine ⟨hneeded, ?_⟩
  split at hwrite
  · rename_i haligned
    obtain rfl := Option.some.inj hwrite
    have hmore : (src.bytes.take (needed / 8)).length = needed / 8 := by
      rw [List.length_take]
      omega
    have hext := hw.extend haligned.2 (src.bytes.take (needed / 8))
    rw [hmore, take_flatMap_byteBits_whole, show 8 * (needed / 8) = needed by omega] at hext
    rw [BitPayload.bits, List.take_take, Nat.min_eq_left hneeded]
    exact hext
  · have hsees := BitReader.Sees.of_payload src (Nat.zero_le _)
    rw [List.drop_zero, ← List.take_append_drop needed src.bits] at hsees
    have htake : (src.bits.take needed).length = needed := by
      rw [List.length_take, src.length_bits]
      omega
    obtain ⟨w₁, hcopy, hholds⟩ := hsees.copyBits _ hw
    rw [htake] at hcopy
    obtain rfl : w₁ = w' := Option.some.inj (hcopy.symm.trans hwrite)
    exact hholds

theorem writeFieldValue_holds {w w' : BitWriter} {bits : List Bool} {f : FieldSpec}
    {value : FieldValue} (hw : w.Holds bits)
    (hwrite : writeFieldValue hostIsLittleEndian w f value = some w') :
    ∃ xs, Encodes hostIsLittleEndian f value xs ∧ w'.Holds (bits ++ xs) := by
  rw [writeFieldValue.eq_def] at hwrite
  split at hwrite
  · rename_i n hty
    dsimp only at hwrite
    split at hwrite
    · obtain rfl := Option.some.inj hwrite
      exact ⟨_, .int hty ‹_› n, hw.writeBits _ _⟩
    · exact nomatch hwrite
  · exact nomatch hwrite
  · rename_i b hty
    obtain ⟨hneeded, hholds⟩ := writeBinary_holds hw hwrite
    exact ⟨_, .bitstring (by rw [hty]; decide) b hneeded, hholds⟩
  · rename_i b hty
    obtain ⟨hneeded, hholds⟩ := writeBinary_holds hw hwrite
    exact ⟨_, .bitstring (by rw [hty]; decide) b hneeded, hholds⟩
  · exact nomatch hwrite
  · exact nomatch hwrite

/-! ## What a field reads -/

/-- The value a field reads back: an integer reduced to its width under its sign, or the bits that
were taken from the source. -/
def FieldSpec.ReadsBack (f : FieldSpec) : FieldValue → FieldValue → Prop
  | .int n, .int m => f.ty = .integer ∧
      m.toInt = if f.signed ∨ f.total = 64 then n.toInt.bmod (2 ^ f.total)
        else n.toInt % 2 ^ f.total
  | .bitstring b, .bitstring b' => f.ty ≠ .integer ∧
      b'.payload.bits = b.payload.bits.take (f.neededBits b.payload.bitLen)
  | _, _ => False

/-- A reader that stands before these bits. -/
structure Reader.At (r : Reader) (rest : List Bool) : Prop where
  bitLen : r.bitLen = r.bs.payload.bitLen
  pos_le : r.pos + rest.length = r.bitLen
  bits : r.bs.payload.bits.drop r.pos = rest

namespace Reader.At

variable {r : Reader} {rest xs : List Bool}

theorem init (bs : Bitstring) : (readerInit bs).At bs.payload.bits :=
  ⟨rfl, by rw [bs.payload.length_bits]; exact Nat.zero_add _, rfl⟩

theorem of_pos (bs : Bitstring) {pos : Nat} (hpos : pos ≤ bs.payload.bitLen) :
    Reader.At ⟨bs, bs.payload.bitLen, pos⟩ (bs.payload.bits.drop pos) := by
  refine ⟨rfl, ?_, rfl⟩
  rw [List.length_drop, bs.payload.length_bits]
  show pos + (bs.payload.bitLen - pos) = bs.payload.bitLen
  omega

theorem advance (h : r.At (xs ++ rest)) : Reader.At { r with pos := r.pos + xs.length } rest where
  bitLen := h.bitLen
  pos_le := by
    have hpos := h.pos_le
    rw [List.length_append] at hpos
    show r.pos + xs.length + rest.length = r.bitLen
    omega
  bits := by
    show r.bs.payload.bits.drop (r.pos + xs.length) = rest
    rw [← List.drop_drop, h.bits, List.drop_left]

theorem take_bytes (h : r.At rest) :
    r.bs.payload.bytes.take ((r.bitLen + 7) / 8) = r.bs.payload.bytes := by
  rw [h.bitLen, ← r.bs.payload.length_bytes, List.take_length]

theorem sees (h : r.At rest) :
    (BitReader.mk (r.bs.payload.bytes.take ((r.bitLen + 7) / 8)) r.bitLen r.pos).Sees rest := by
  have hpos := h.pos_le
  have hlen := h.bitLen
  rw [h.take_bytes, ← h.bits, h.bitLen]
  exact .of_payload _ (by omega)

theorem copy (h : r.At (xs ++ rest)) :
    ∃ b, (if r.pos % 8 = 0 ∧ xs.length % 8 = 0 then
        some (allocBitstring (((r.bs.payload.bytes.take ((r.bitLen + 7) / 8)).drop
          (r.pos / 8)).take (xs.length / 8)) xs.length)
      else do
        let w ← copyBits ⟨r.bs.payload.bytes.take ((r.bitLen + 7) / 8), r.bitLen, r.pos⟩ .empty
          xs.length
        some (allocBitstring w.bytes xs.length)) = some b ∧ b.payload.bits = xs := by
  have hpos := h.pos_le
  have hlen := r.bs.payload.length_bytes
  rw [List.length_append, h.bitLen] at hpos
  split
  · rename_i haligned
    refine ⟨_, rfl, ?_⟩
    rw [h.take_bytes, allocBitstring_bits (by rw [List.length_take, List.length_drop]; omega),
      take_flatMap_byteBits_whole, drop_flatMap_byteBits, List.take_take,
      show 8 * (r.pos / 8) = r.pos by omega, Nat.min_eq_left (by omega)]
    -- the bits of the slice are the next ones of the reader
    have hbits := congrArg (List.take xs.length) h.bits
    rw [List.take_left, BitPayload.bits, List.drop_take, List.take_take,
      Nat.min_eq_left (by omega)] at hbits
    exact hbits
  · obtain ⟨w, hcopy, hholds⟩ := h.sees.copyBits xs .empty
    rw [List.nil_append] at hholds
    rw [hcopy]
    refine ⟨_, rfl, ?_⟩
    rw [← hholds.bitLen]
    exact hholds.allocBitstring_bits

theorem readBinary (h : r.At (xs ++ rest)) :
    ∃ b, readBinary r xs.length = some b ∧ b.payload.bits = xs := by
  rw [Bitstr.readBinary]
  split
  · rename_i stub hstub
    split
    · rename_i htail
      have hpos := h.pos_le
      have hbits := h.bits
      have hlen := h.bitLen
      rw [hstub] at hbits hlen
      -- nothing is left after a tail
      have hrest : rest = [] := by
        rw [List.length_append] at hpos
        exact List.eq_nil_of_length_eq_zero (by omega)
      obtain ⟨b, halloc, hb⟩ := allocBitstringSuffix_bits stub (r.pos / 8) (by
        show 8 * (r.pos / 8) ≤ (Bitstring.procbin stub).payload.bitLen
        omega)
      refine ⟨b, halloc, ?_⟩
      rw [hb, show 8 * (r.pos / 8) = r.pos by omega]
      rw [hrest, List.append_nil] at hbits
      exact hbits
    · exact h.copy
  · exact h.copy

end Reader.At

theorem toInt_emod_two_pow (n : BitVec 64) {t : Nat} (ht : t ≤ 64) :
    n.toInt % 2 ^ t = (n.toNat % 2 ^ t : Nat) := by
  have hdvd : (2 ^ t : Int) ∣ 2 ^ 64 := pow_dvd_pow 2 ht
  rw [BitVec.toInt_eq_toNat_bmod, ← Int.emod_emod_of_dvd _ hdvd,
    show (2 ^ 64 : Int) = ((2 ^ 64 : Nat) : Int) from rfl, Int.bmod_emod]
  push_cast
  exact Int.emod_emod_of_dvd _ hdvd

theorem toInt_readBack (n : BitVec 64) {t : Nat} (ht : t ≤ 64) (signed : Bool) :
    (if signed then signExtend (maskTo n t) t else maskTo n t).toInt =
      if signed ∨ t = 64 then n.toInt.bmod (2 ^ t) else n.toInt % 2 ^ t := by
  have hmod := toInt_emod_two_pow n ht
  have hbmod : ((n.toNat % 2 ^ t : Nat) : Int).bmod (2 ^ t) = n.toInt.bmod (2 ^ t) := by
    rw [← hmod, ← Int.emod_bmod n.toInt]
    push_cast
    rfl
  cases signed with
  | true =>
    rw [if_pos rfl, if_pos (.inl rfl), toInt_signExtend ht (maskTo_lt n ht), toNat_maskTo n ht,
      hbmod]
  | false =>
    rw [if_neg (by decide)]
    rcases Nat.lt_or_ge t 64 with hlt | hge
    · have hsmall : 2 * (n.toNat % 2 ^ t) < 2 ^ 64 := by
        have hhalf : 2 ^ t ≤ 2 ^ 63 := Nat.pow_le_pow_right (by decide) (by omega)
        have hrem := Nat.mod_lt n.toNat (Nat.two_pow_pos t)
        omega
      rw [if_neg (by simp; omega), hmod, BitVec.toInt_eq_toNat_of_lt (by
        rw [toNat_maskTo n ht]
        exact hsmall), toNat_maskTo n ht]
    · obtain rfl : t = 64 := by omega
      rw [if_pos (.inr rfl), ← hbmod, ← toNat_maskTo n le_rfl, BitVec.toInt_eq_toNat_bmod]

theorem readInteger_at {r : Reader} {f : FieldSpec} {n : BitVec 64} {rest : List Bool}
    (hty : f.ty = .integer) (htotal : f.total ≤ 64) (isLast : Bool) (h : r.At (bitsOf f.total
      (applyEndianForWrite hostIsLittleEndian (maskTo n f.total) f.total f.endian).toNat ++ rest)) :
    ∃ m r', readFieldBits hostIsLittleEndian r f.ty f.size f.unit f.endian f.signed isLast =
        some (.int m, r') ∧ f.ReadsBack (.int n) (.int m) ∧ r'.At rest := by
  have hmask := maskTo_lt n htotal
  have hnext := h.advance
  rw [length_bitsOf] at hnext
  obtain ⟨hread, -⟩ := h.sees.readBits (applyEndianForWrite_lt hostIsLittleEndian f.endian hmask)
  refine ⟨_, _, ?_, ⟨hty, toInt_readBack n htotal f.signed⟩, hnext⟩
  rw [hty]
  show (if f.total > 64 then none else _) = _
  rw [if_neg (by omega)]
  show (((BitReader.mk _ _ _).readBits f.total).bind _) = _
  rw [hread, Option.bind_some]
  show some (FieldValue.int (if f.signed then signExtend (applyEndianForRead hostIsLittleEndian
      (applyEndianForWrite hostIsLittleEndian (maskTo n f.total) f.total f.endian) f.total f.endian)
      f.total else applyEndianForRead hostIsLittleEndian (applyEndianForWrite hostIsLittleEndian
        (maskTo n f.total) f.total f.endian) f.total f.endian), _) = _
  rw [applyEndianForRead_write hostIsLittleEndian f.endian hmask]
  rfl

theorem readBitstring_at {r : Reader} {f : FieldSpec} {b : Bitstring} {rest : List Bool}
    (hty : f.ty ≠ .integer) (hneeded : f.neededBits b.payload.bitLen ≤ b.payload.bitLen)
    {isLast : Bool} (hrest : f.size = none → isLast = true ∧ rest = [])
    (h : r.At (b.payload.bits.take (f.neededBits b.payload.bitLen) ++ rest)) :
    ∃ b' r', readFieldBits hostIsLittleEndian r f.ty f.size f.unit f.endian f.signed isLast =
        some (.bitstring b', r') ∧ f.ReadsBack (.bitstring b) (.bitstring b') ∧ r'.At rest := by
  have hlen : (b.payload.bits.take (f.neededBits b.payload.bitLen)).length =
      f.neededBits b.payload.bitLen := by
    rw [List.length_take, b.payload.length_bits]
    omega
  have hpos := h.pos_le
  rw [List.length_append, hlen] at hpos
  -- the reader takes as many bits as were written
  have htaken : r.neededBits f.size f.unit isLast = some (f.neededBits b.payload.bitLen) := by
    cases hsize : f.size with
    | none =>
      obtain ⟨rfl, rfl⟩ := hrest hsize
      rw [List.length_nil] at hpos
      exact congrArg some (by omega)
    | some n => simp only [Reader.neededBits, FieldSpec.neededBits, hsize]
  obtain ⟨b', hread, hbits⟩ := h.readBinary
  have hnext := h.advance
  rw [hlen] at hread hnext
  refine ⟨b', _, ?_, ⟨hty, hbits⟩, hnext⟩
  have hbody : ((r.neededBits f.size f.unit isLast).bind fun needed =>
        if r.pos + needed > r.bitLen then none
        else (readBinary r needed).bind fun b => some (FieldValue.bitstring b,
          ({ r with pos := r.pos + needed } : Reader))) =
      some (.bitstring b', { r with pos := r.pos + f.neededBits b.payload.bitLen }) := by
    rw [htaken, Option.bind_some, if_neg (by omega), hread]
    rfl
  cases hf : f.ty with
  | integer => exact absurd hf hty
  | binary => exact hbody
  | bits => exact hbody

theorem readFieldRef_at {r : Reader} {f : FieldSpec} {value : FieldValue} {xs rest : List Bool}
    (hunit : f.unit.toNat < 2 ^ 16) {isLast : Bool}
    (hrest : f.ty ≠ .integer → f.size = none → isLast = true ∧ rest = [])
    (hxs : Encodes hostIsLittleEndian f value xs) (h : r.At (xs ++ rest)) :
    ∃ value' r', readFieldRef hostIsLittleEndian r (f.pack isLast) (f.size.getD 0) =
        some (value', r') ∧ f.ReadsBack value value' ∧ r'.At rest := by
  rw [readFieldRef_pack hostIsLittleEndian r f isLast hunit]
  cases hxs with
  | int hty htotal n =>
    obtain ⟨m, r', hread, hback, hat⟩ := readInteger_at hty htotal isLast h
    exact ⟨_, r', hread, hback, hat⟩
  | bitstring hty b hneeded =>
    obtain ⟨b', r', hread, hback, hat⟩ := readBitstring_at hty hneeded (hrest hty) h
    exact ⟨_, r', hread, hback, hat⟩

/-! ## Expressions and patterns -/

theorem writeFields_holds {w w' : BitWriter} {bits : List Bool}
    {fields : List (FieldSpec × FieldValue)} (hw : w.Holds bits)
    (hwrite : writeFields hostIsLittleEndian w fields = some w') :
    ∃ chunks, List.Forall₂ (fun p => Encodes hostIsLittleEndian p.1 p.2) fields chunks ∧
      w'.Holds (bits ++ chunks.flatten) := by
  induction fields generalizing w bits with
  | nil =>
    obtain rfl := Option.some.inj hwrite
    exact ⟨[], .nil, by simpa using hw⟩
  | cons p fields ih =>
    obtain ⟨f, value⟩ := p
    obtain ⟨w₁, hfirst, hrest⟩ := Option.bind_eq_some_iff.mp hwrite
    obtain ⟨xs, hxs, hw₁⟩ := writeFieldValue_holds hw hfirst
    obtain ⟨chunks, hchunks, hw'⟩ := ih hw₁ hrest
    rw [List.append_assoc] at hw'
    exact ⟨xs :: chunks, .cons hxs hchunks, hw'⟩

/-- A binary field without a size stands at the end only. -/
def RestIsLast (fields : List FieldSpec) : Prop :=
  ∀ f ∈ fields.dropLast, f.ty ≠ .integer → f.size ≠ none

theorem readFields_at {r : Reader} {fields : List (FieldSpec × FieldValue)}
    {chunks : List (List Bool)}
    (hchunks : List.Forall₂ (fun p => Encodes hostIsLittleEndian p.1 p.2) fields chunks)
    (hunits : ∀ p ∈ fields, p.1.unit.toNat < 2 ^ 16) (hlast : RestIsLast (fields.map (·.1)))
    (h : r.At chunks.flatten) :
    ∃ values r', readFields hostIsLittleEndian r (fields.map (·.1)) = some (values, r') ∧
      List.Forall₂ (fun p => p.1.ReadsBack p.2) fields values ∧ r'.At [] := by
  induction hchunks generalizing r with
  | nil => exact ⟨[], r, rfl, .nil, h⟩
  | @cons p xs fields chunks hxs hchunks ih =>
    rw [List.flatten_cons] at h
    -- a field that takes the rest has nothing after it
    have hrest : p.1.ty ≠ .integer → p.1.size = none →
        (fields.map (·.1)).isEmpty = true ∧ chunks.flatten = [] := by
      intro hty hsize
      cases hchunks with
      | nil => exact ⟨rfl, rfl⟩
      | cons hxs' hchunks' => exact absurd hsize (hlast p.1 List.mem_cons_self hty)
    have htail : RestIsLast (fields.map (·.1)) := by
      intro f hf
      cases fields with
      | nil => exact nomatch hf
      | cons q fields => exact hlast f (List.mem_cons_of_mem _ hf)
    obtain ⟨value, r₁, hread, hback, hat⟩ :=
      readFieldRef_at (hunits p List.mem_cons_self) hrest hxs h
    obtain ⟨values, r', hreads, hbacks, hend⟩ :=
      ih (fun q hq => hunits q (List.mem_cons_of_mem _ hq)) htail hat
    refine ⟨value :: values, r', ?_, .cons hback hbacks, hend⟩
    rw [List.map_cons, readFields, hread]
    show (readFields hostIsLittleEndian r₁ (fields.map (·.1))).bind _ = _
    rw [hreads]
    rfl

/-- What the fields of an expression write, the pattern with the same fields reads, up to the end of
the bitstring. -/
theorem readFields_writeFields (hostIsLittleEndian : Bool)
    (fields : List (FieldSpec × FieldValue)) (w : BitWriter)
    (hunits : ∀ p ∈ fields, p.1.unit.toNat < 2 ^ 16) (hlast : RestIsLast (fields.map (·.1)))
    (hwrite : writeFields hostIsLittleEndian .empty fields = some w) :
    ∃ values r, readFields hostIsLittleEndian (readerInit (finalize w)) (fields.map (·.1)) =
        some (values, r) ∧
      List.Forall₂ (fun p => p.1.ReadsBack p.2) fields values ∧ readerDone r = true := by
  obtain ⟨chunks, hchunks, hw⟩ := writeFields_holds .empty hwrite
  have hinit := Reader.At.init (finalize w)
  rw [finalize, hw.allocBitstring_bits, List.nil_append] at hinit
  obtain ⟨values, r, hread, hback, hend⟩ := readFields_at hchunks hunits hlast hinit
  refine ⟨values, r, hread, hback, ?_⟩
  have hpos := hend.pos_le
  rw [List.length_nil] at hpos
  exact beq_iff_eq.mpr hpos.symm

end Host

/-- Three signed bits, a little-endian word of two bytes that starts inside a byte, five bits of a
source of eight, and the rest. -/
def mixedFields : List (FieldSpec × FieldValue) :=
  [(⟨.integer, some 3, 1, .big, true⟩, .int 5),
   (⟨.integer, some 2, 8, .little, false⟩, .int 0x1234),
   (⟨.bits, some 5, 1, .big, false⟩, .bitstring (.inline ⟨8, [0b10111000], rfl⟩)),
   (⟨.binary, none, 8, .big, false⟩, .bitstring (.inline ⟨16, [7, 8], rfl⟩))]

theorem mixedFields_read_back : ∃ w, writeFields true .empty mixedFields = some w ∧
    ∃ values r, readFields true (readerInit (finalize w)) (mixedFields.map (·.1)) =
        some (values, r) ∧
      List.Forall₂ (fun p => p.1.ReadsBack p.2) mixedFields values ∧ readerDone r = true := by
  have hsome : (writeFields true .empty mixedFields).isSome = true := by decide
  obtain ⟨w, hw⟩ := Option.isSome_iff_exists.mp hsome
  refine ⟨w, hw, readFields_writeFields true mixedFields w ?_ ?_ hw⟩
  · decide
  · rw [RestIsLast]
    decide

/-- A binary without a size before another field is written and cannot be read, and an unsigned
field of 64 bits gives a negative number back. -/
theorem rest_and_full_width_do_not_return : (∃ w, writeFields true .empty
        [(⟨.binary, none, 8, .big, false⟩, .bitstring (.inline ⟨8, [1], rfl⟩)),
         (⟨.integer, some 8, 1, .big, false⟩, .int 2)] = some w ∧
      readFields true (readerInit (finalize w))
        [⟨.binary, none, 8, .big, false⟩, ⟨.integer, some 8, 1, .big, false⟩] = none) ∧
    (∃ w, writeFields true .empty [(⟨.integer, some 64, 1, .big, false⟩, .int (-1))] = some w ∧
      (readFields true (readerInit (finalize w)) [⟨.integer, some 64, 1, .big, false⟩]).map (·.1) =
        some [.int (-1)] ∧ (-1 : BitVec 64).toInt ≠ (-1 : BitVec 64).toInt % 2 ^ 64) := by
  refine ⟨⟨_, rfl, ?_⟩, ⟨_, rfl, ?_, ?_⟩⟩
  · decide
  · decide +kernel
  · decide

end Fz.Bitstr
