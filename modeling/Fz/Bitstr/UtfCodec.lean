import Fz.Bitstr.Utf

/-!
# What the UTF decoders accept

Each decoder reads the byte sequences of one shape, and each shape stands for one number
(`Utf8Reads`, `Utf16Reads`, `Utf32Reads`).  The encoder writes the shapes of scalar values, the
shortest one where there are several.  The rest of the shapes is listed byte by byte: overlong
forms, surrogates and numbers past the last plane.  The decoders do not look for these, so a field
is read exactly as the encoder writes it where the bytes start with none of them
(`utf_decoding_exact_iff`).
-/

namespace Fz.Bitstr

open Fz.Base Fz.Terms

/-! ## Reading bytes -/

/-- The reader at a byte of whole bytes. -/
def BitReader.atByte (bytes : List UInt8) (k : Nat) : BitReader := ⟨bytes, 8 * bytes.length, 8 * k⟩

theorem readByte_atByte (bytes : List UInt8) (k : Nat) : readByte (.atByte bytes k) =
      bytes[k]?.map fun b => (b.toNat, BitReader.atByte bytes (k + 1)) := by
  cases hbyte : bytes[k]? with
  | none =>
    have hlen : bytes.length ≤ k := List.getElem?_eq_none_iff.mp hbyte
    have hshort : (BitReader.atByte bytes k).remaining < 8 := by
      simp only [BitReader.remaining, BitReader.atByte]
      omega
    rw [readByte, BitReader.readBits, if_pos hshort]
    rfl
  | some b =>
    obtain ⟨hlt, hb⟩ := List.getElem?_eq_some_iff.mp hbyte
    have hvalue : (BitVec.ofNat 64 b.toNat).toNat = b.toNat := by
      have := b.toNat_lt
      rw [BitVec.toNat_ofNat]
      omega
    have hsees : (BitReader.atByte bytes k).Sees
        (bitsOf 8 (BitVec.ofNat 64 b.toNat).toNat ++ (bytes.drop (k + 1)).flatMap byteBits) := by
      rw [hvalue]
      refine ⟨?_, le_rfl, ?_⟩
      · rw [List.length_append, length_bitsOf, length_flatMap_byteBits, List.length_drop]
        show 8 * k + _ = 8 * bytes.length
        omega
      · show ((bytes.flatMap byteBits).take (8 * bytes.length)).drop (8 * k) = _
        rw [List.take_of_length_le (by rw [length_flatMap_byteBits]), ← drop_flatMap_byteBits,
          List.drop_eq_getElem_cons hlt, hb, List.flatMap_cons]
        rfl
    have hread := (hsees.readBits (by rw [hvalue]; exact b.toNat_lt)).1
    rw [readByte, hread]
    show some ((BitVec.ofNat 64 b.toNat).toNat, _) = _
    rw [hvalue]
    rfl

/-! ## UTF-8 -/

/-- A continuation byte. -/
def Tail (b : UInt8) : Prop := 0x80 ≤ b.toNat ∧ b.toNat < 0xc0

/-- A sequence of the shape of UTF-8, and the number that its bytes spell. -/
inductive Utf8Reads : List UInt8 → Nat → Prop where
  | one {a : UInt8} {c : Nat} : a.toNat < 0x80 → c = a.toNat → Utf8Reads [a] c
  | two {a b : UInt8} {c : Nat} : 0xc0 ≤ a.toNat → a.toNat < 0xe0 → Tail b →
      c = (a.toNat - 0xc0) * 0x40 + (b.toNat - 0x80) → Utf8Reads [a, b] c
  | three {a b d : UInt8} {c : Nat} : 0xe0 ≤ a.toNat → a.toNat < 0xf0 → Tail b → Tail d →
      c = ((a.toNat - 0xe0) * 0x40 + (b.toNat - 0x80)) * 0x40 + (d.toNat - 0x80) →
      Utf8Reads [a, b, d] c
  | four {a b d e : UInt8} {c : Nat} : 0xf0 ≤ a.toNat → a.toNat < 0xf8 → Tail b → Tail d → Tail e →
      c = (((a.toNat - 0xf0) * 0x40 + (b.toNat - 0x80)) * 0x40 + (d.toNat - 0x80)) * 0x40 +
        (e.toNat - 0x80) →
      Utf8Reads [a, b, d, e] c

/-- The sequences of that shape that spell no scalar value, or not in its shortest form. -/
inductive Utf8Malformed : List UInt8 → Prop where
  | overlongTwo {a b : UInt8} : 0xc0 ≤ a.toNat → a.toNat ≤ 0xc1 → Tail b → Utf8Malformed [a, b]
  | overlongThree {a b d : UInt8} : a.toNat = 0xe0 → Tail b → b.toNat < 0xa0 → Tail d →
      Utf8Malformed [a, b, d]
  | surrogate {a b d : UInt8} : a.toNat = 0xed → Tail b → 0xa0 ≤ b.toNat → Tail d →
      Utf8Malformed [a, b, d]
  | overlongFour {a b d e : UInt8} : a.toNat = 0xf0 → Tail b → b.toNat < 0x90 → Tail d → Tail e →
      Utf8Malformed [a, b, d, e]
  | pastLastPlane {a b d e : UInt8} : a.toNat = 0xf4 → Tail b → 0x90 ≤ b.toNat → Tail d → Tail e →
      Utf8Malformed [a, b, d, e]
  | noPlane {a b d e : UInt8} : 0xf5 ≤ a.toNat → a.toNat < 0xf8 → Tail b → Tail d → Tail e →
      Utf8Malformed [a, b, d, e]

theorem tail_iff {b : Nat} (hb : b < 0x100) : b &&& 0xc0 = 0x80 ↔ 0x80 ≤ b ∧ b < 0xc0 := by
  revert b
  decide +kernel

theorem and_mask (n k : Nat) : n &&& (2 ^ k - 1) = n % 2 ^ k := Nat.and_two_pow_sub_one_eq_mod n k

theorem shiftIn_six (cp b : Nat) (hb : 0x80 ≤ b ∧ b < 0xc0) :
    (cp <<< 6) ||| (b &&& 0x3f) = cp * 0x40 + (b - 0x80) := by
  have hlow : b &&& 0x3f = b - 0x80 := by
    rw [show 0x3f = 2 ^ 6 - 1 from rfl, and_mask]
    omega
  rw [hlow, ← Nat.shiftLeft_add_eq_or_of_lt (by omega), Nat.shiftLeft_eq]

section

variable (a : Nat)

theorem and_two (h : 0xc0 ≤ a) (h' : a < 0xe0) : a &&& 0x1f = a - 0xc0 := by
  rw [show 0x1f = 2 ^ 5 - 1 from rfl, and_mask]
  omega

theorem and_three (h : 0xe0 ≤ a) (h' : a < 0xf0) : a &&& 0x0f = a - 0xe0 := by
  rw [show 0x0f = 2 ^ 4 - 1 from rfl, and_mask]
  omega

theorem and_four (h : 0xf0 ≤ a) (h' : a < 0xf8) : a &&& 0x07 = a - 0xf0 := by
  rw [show 0x07 = 2 ^ 3 - 1 from rfl, and_mask]
  omega

end

theorem leadByte_eq {b : Nat} (hb : b < 0x100) (hhigh : 0x80 ≤ b) : leadByte b =
      if b < 0xc0 then none else if b < 0xe0 then some (1, 0x1f)
      else if b < 0xf0 then some (2, 0x0f) else if b < 0xf8 then some (3, 0x07) else none := by
  revert b
  decide +kernel

theorem readContinuations_eq_some {bytes : List UInt8} {k cp extras c : Nat} {r : BitReader} :
    readContinuations (.atByte bytes k) cp extras = some (c, r) ↔
      ∃ bs : List UInt8, bs.length = extras ∧ (∀ b ∈ bs, Tail b) ∧ bs <+: bytes.drop k ∧
        c = bs.foldl (fun c b => c * 0x40 + (b.toNat - 0x80)) cp ∧
        r = .atByte bytes (k + extras) := by
  induction extras generalizing k cp with
  | zero =>
    constructor
    · intro h
      obtain ⟨rfl, rfl⟩ := Prod.mk.inj (Option.some.inj h)
      exact ⟨[], rfl, fun b hb => absurd hb List.not_mem_nil, List.nil_prefix, rfl, rfl⟩
    · rintro ⟨bs, hlen, -, -, rfl, rfl⟩
      obtain rfl := List.eq_nil_of_length_eq_zero hlen
      rfl
  | succ extras ih =>
    rw [readContinuations, readByte_atByte]
    cases hbyte : bytes[k]? with
    | none =>
      have hrest : bytes.drop k = [] := List.drop_of_length_le (List.getElem?_eq_none_iff.mp hbyte)
      constructor
      · exact fun h => nomatch h
      · rintro ⟨bs, hlen, -, hstart, -, -⟩
        rw [hrest, List.prefix_nil] at hstart
        subst hstart
        exact absurd hlen (Nat.succ_ne_zero extras).symm
    | some b =>
      obtain ⟨hlt, hb⟩ := List.getElem?_eq_some_iff.mp hbyte
      have hrest : bytes.drop k = b :: bytes.drop (k + 1) := by
        rw [List.drop_eq_getElem_cons hlt, hb]
      show (if b.toNat &&& 0xc0 ≠ 0x80 then none
        else readContinuations (.atByte bytes (k + 1)) ((cp <<< 6) ||| (b.toNat &&& 0x3f)) extras) =
          some (c, r) ↔ _
      rw [hrest, show k + (extras + 1) = k + 1 + extras by omega]
      by_cases htail : Tail b
      · rw [if_neg (not_not.mpr ((tail_iff b.toNat_lt).mpr htail)), shiftIn_six _ _ htail, ih]
        constructor
        · rintro ⟨bs, hlen, htails, hstart, hc, hr⟩
          exact ⟨b :: bs, congrArg (· + 1) hlen, List.forall_mem_cons.mpr ⟨htail, htails⟩,
            List.cons_prefix_cons.mpr ⟨rfl, hstart⟩, by rw [List.foldl_cons, hc], hr⟩
        · rintro ⟨bs, hlen, htails, hstart, hc, hr⟩
          cases bs with
          | nil => exact absurd hlen (Nat.succ_ne_zero extras).symm
          | cons b' bs =>
            obtain ⟨rfl, hbs⟩ := List.cons_prefix_cons.mp hstart
            rw [List.foldl_cons] at hc
            exact ⟨bs, Nat.succ.inj hlen, (List.forall_mem_cons.mp htails).2, hbs, hc, hr⟩
      · rw [if_pos (mt (tail_iff b.toNat_lt).mp htail)]
        constructor
        · exact fun h => nomatch h
        · rintro ⟨bs, hlen, htails, hstart, -, -⟩
          cases bs with
          | nil => exact absurd hlen (Nat.succ_ne_zero extras).symm
          | cons b' bs =>
            obtain ⟨rfl, -⟩ := List.cons_prefix_cons.mp hstart
            exact absurd (htails b' (List.mem_cons_self ..)) htail

/-- The decoder reads exactly the shapes. -/
theorem decodeUtf8_eq_some {bytes : List UInt8} {c : Nat} {r : BitReader} :
    decodeUtf8 (.atByte bytes 0) = some (c, r) ↔
      ∃ code, Utf8Reads code c ∧ code <+: bytes ∧ r = .atByte bytes code.length := by
  have haligned : ¬(BitReader.atByte bytes 0).pos % 8 ≠ 0 := by simp [BitReader.atByte]
  rw [decodeUtf8, if_neg haligned, readByte_atByte]
  cases bytes with
  | nil =>
    constructor
    · exact fun h => nomatch h
    · rintro ⟨code, hreads, hstart, -⟩
      rw [List.prefix_nil] at hstart
      subst hstart
      cases hreads
  | cons a rest =>
    show (if a.toNat < 0x80 then some (a.toNat, BitReader.atByte (a :: rest) 1)
      else (leadByte a.toNat).bind fun p =>
        readContinuations (.atByte (a :: rest) 1) (a.toNat &&& p.2) p.1) = some (c, r) ↔ _
    have hlt := a.toNat_lt
    split
    · next hlow =>
      constructor
      · intro h
        obtain ⟨rfl, rfl⟩ := Prod.mk.inj (Option.some.inj h)
        exact ⟨[a], .one hlow rfl, List.cons_prefix_cons.mpr ⟨rfl, List.nil_prefix⟩, rfl⟩
      · rintro ⟨code, hreads, hstart, rfl⟩
        cases hreads with
        | one ha hc =>
          obtain ⟨rfl, -⟩ := List.cons_prefix_cons.mp hstart
          rw [hc]
          rfl
        | two ha | three ha | four ha =>
          obtain ⟨rfl, -⟩ := List.cons_prefix_cons.mp hstart
          omega
    · next hhigh =>
      rw [leadByte_eq hlt (by omega)]
      constructor
      · intro h
        split_ifs at h with h₁ h₂ h₃ h₄
        · exact nomatch h
        · obtain ⟨bs, hlen, htails, hbs, hc, hr⟩ := readContinuations_eq_some.mp h
          obtain ⟨b, rfl⟩ := List.length_eq_one_iff.mp hlen
          rw [and_two a.toNat (by omega) h₂] at hc
          exact ⟨[a, b], .two (by omega) h₂ (htails b (by simp)) hc,
            List.cons_prefix_cons.mpr ⟨rfl, hbs⟩, hr⟩
        · obtain ⟨bs, hlen, htails, hbs, hc, hr⟩ := readContinuations_eq_some.mp h
          obtain ⟨b, d, rfl⟩ := List.length_eq_two.mp hlen
          rw [and_three a.toNat (by omega) h₃] at hc
          exact ⟨[a, b, d], .three (by omega) h₃ (htails b (by simp)) (htails d (by simp)) hc,
            List.cons_prefix_cons.mpr ⟨rfl, hbs⟩, hr⟩
        · obtain ⟨bs, hlen, htails, hbs, hc, hr⟩ := readContinuations_eq_some.mp h
          obtain ⟨b, d, e, rfl⟩ := List.length_eq_three.mp hlen
          rw [and_four a.toNat (by omega) h₄] at hc
          exact ⟨[a, b, d, e], .four (by omega) h₄ (htails b (by simp)) (htails d (by simp))
            (htails e (by simp)) hc, List.cons_prefix_cons.mpr ⟨rfl, hbs⟩, hr⟩
        · exact nomatch h
      · rintro ⟨code, hreads, hstart, rfl⟩
        cases hreads with
        | one ha hc =>
          obtain ⟨rfl, -⟩ := List.cons_prefix_cons.mp hstart
          omega
        | @two _ b _ ha ha' hb hc =>
          obtain ⟨rfl, hbs⟩ := List.cons_prefix_cons.mp hstart
          rw [if_neg (by omega), if_pos ha']
          refine readContinuations_eq_some.mpr ⟨[b], rfl, by simpa using hb, hbs, ?_, rfl⟩
          rw [hc, and_two _ ha ha']
          rfl
        | @three _ b d _ ha ha' hb hd hc =>
          obtain ⟨rfl, hbs⟩ := List.cons_prefix_cons.mp hstart
          rw [if_neg (by omega), if_neg (by omega), if_pos ha']
          refine readContinuations_eq_some.mpr
            ⟨[b, d], rfl, by simpa using ⟨hb, hd⟩, hbs, ?_, rfl⟩
          rw [hc, and_three _ ha ha']
          rfl
        | @four _ b d e _ ha ha' hb hd he hc =>
          obtain ⟨rfl, hbs⟩ := List.cons_prefix_cons.mp hstart
          rw [if_neg (by omega), if_neg (by omega), if_neg (by omega), if_pos ha']
          refine readContinuations_eq_some.mpr
            ⟨[b, d, e], rfl, by simpa using ⟨hb, hd, he⟩, hbs, ?_, rfl⟩
          rw [hc, and_four _ ha ha']
          rfl

theorem marker_or (i b : Nat) {x : Nat} (hx : x < 2 ^ i) :
    UInt8.ofNat (2 ^ i * b) ||| UInt8.ofNat x = UInt8.ofNat (2 ^ i * b + x) := by
  rw [Nat.two_pow_add_eq_or_of_lt hx, UInt8.ofNat_or]

theorem tail_or : ∀ x < 0x40, (0x80 : UInt8) ||| UInt8.ofNat x = UInt8.ofNat (0x80 + x) :=
  fun _ hx => marker_or 6 2 hx

theorem two_or : ∀ x < 0x20, (0xc0 : UInt8) ||| UInt8.ofNat x = UInt8.ofNat (0xc0 + x) :=
  fun _ hx => marker_or 5 6 hx

theorem three_or : ∀ x < 0x10, (0xe0 : UInt8) ||| UInt8.ofNat x = UInt8.ofNat (0xe0 + x) :=
  fun _ hx => marker_or 4 14 hx

theorem four_or : ∀ x < 0x08, (0xf0 : UInt8) ||| UInt8.ofNat x = UInt8.ofNat (0xf0 + x) :=
  fun _ hx => marker_or 3 30 hx

theorem encodeUtf8_eq (c : Nat) : encodeUtf8 c =
      if c > 0x10ffff ∨ (0xd800 ≤ c ∧ c ≤ 0xdfff) then none
      else if c < 0x80 then some [UInt8.ofNat c]
      else if c < 0x800 then some [UInt8.ofNat (0xc0 + c / 0x40), UInt8.ofNat (0x80 + c % 0x40)]
      else if c < 0x10000 then
        some [UInt8.ofNat (0xe0 + c / 0x1000), UInt8.ofNat (0x80 + c / 0x40 % 0x40),
          UInt8.ofNat (0x80 + c % 0x40)] else
        some [UInt8.ofNat (0xf0 + c / 0x40000), UInt8.ofNat (0x80 + c / 0x1000 % 0x40),
          UInt8.ofNat (0x80 + c / 0x40 % 0x40), UInt8.ofNat (0x80 + c % 0x40)] := by
  have hmask : ∀ n, n &&& 0x3f = n % 0x40 := fun n => and_mask n 6
  have hshift : ∀ n k, n >>> k = n / 2 ^ k := Nat.shiftRight_eq_div_pow
  rw [encodeUtf8]
  simp only [hmask, hshift, Nat.reducePow]
  split
  · rfl
  split
  · rfl
  split
  · rw [two_or _ (by omega), tail_or _ (by omega)]
  split
  · rw [three_or _ (by omega), tail_or _ (by omega), tail_or _ (by omega)]
  · rw [four_or _ (by omega), tail_or _ (by omega), tail_or _ (by omega), tail_or _ (by omega)]

theorem toNat_ofNat {n : Nat} (h : n < 0x100) : (UInt8.ofNat n).toNat = n := by
  rw [UInt8.toNat_ofNat']
  exact Nat.mod_eq_of_lt h

theorem ofNat_eq {n : Nat} (b : UInt8) (h : n = b.toNat) : UInt8.ofNat n = b := by
  rw [h, UInt8.ofNat_toNat]

theorem tail_ofNat {x : Nat} (h : x < 0x40) : Tail (UInt8.ofNat (0x80 + x)) := by
  rw [Tail, toNat_ofNat (by omega)]
  omega

/-- The encoder writes the shapes that are not malformed. -/
theorem encodeUtf8_eq_some {c : Nat} {code : List UInt8} :
    encodeUtf8 c = some code ↔ Utf8Reads code c ∧ ¬Utf8Malformed code := by
  rw [encodeUtf8_eq]
  constructor
  · intro h
    split_ifs at h with hnone h₁ h₂ h₃
    · obtain rfl := Option.some.inj h
      have ha := toNat_ofNat (n := c) (by omega)
      refine ⟨.one (by omega) ha.symm, fun hbad => ?_⟩
      cases hbad
    · obtain rfl := Option.some.inj h
      have ha := toNat_ofNat (n := 0xc0 + c / 0x40) (by omega)
      have hb := toNat_ofNat (n := 0x80 + c % 0x40) (by omega)
      refine ⟨.two (by omega) (by omega) (tail_ofNat (by omega)) (by omega), fun hbad => ?_⟩
      cases hbad
      omega
    · obtain rfl := Option.some.inj h
      have ha := toNat_ofNat (n := 0xe0 + c / 0x1000) (by omega)
      have hb := toNat_ofNat (n := 0x80 + c / 0x40 % 0x40) (by omega)
      have hd := toNat_ofNat (n := 0x80 + c % 0x40) (by omega)
      refine ⟨.three (by omega) (by omega) (tail_ofNat (by omega)) (tail_ofNat (by omega))
        (by omega), fun hbad => ?_⟩
      cases hbad <;> omega
    · obtain rfl := Option.some.inj h
      have ha := toNat_ofNat (n := 0xf0 + c / 0x40000) (by omega)
      have hb := toNat_ofNat (n := 0x80 + c / 0x1000 % 0x40) (by omega)
      have hd := toNat_ofNat (n := 0x80 + c / 0x40 % 0x40) (by omega)
      have he := toNat_ofNat (n := 0x80 + c % 0x40) (by omega)
      refine ⟨.four (by omega) (by omega) (tail_ofNat (by omega)) (tail_ofNat (by omega))
        (tail_ofNat (by omega)) (by omega), fun hbad => ?_⟩
      cases hbad <;> omega
  · rintro ⟨hreads, hwell⟩
    cases hreads with
    | one ha hc =>
      rw [if_neg (by omega), if_pos (by omega), ofNat_eq _ hc]
    | @two a b _ ha ha' hb hc =>
      have hlong : ¬_ := fun h => hwell (.overlongTwo ha h hb)
      obtain ⟨hb, hb'⟩ := hb
      rw [if_neg (by omega), if_neg (by omega), if_pos (by omega), ofNat_eq a (by omega),
        ofNat_eq b (by omega)]
    | @three a b d _ ha ha' hb hd hc =>
      have hlong : ¬(_ ∧ _) := fun h => hwell (.overlongThree h.1 hb h.2 hd)
      have hsurrogate : ¬(_ ∧ _) := fun h => hwell (.surrogate h.1 hb h.2 hd)
      obtain ⟨hb, hb'⟩ := hb
      obtain ⟨hd, hd'⟩ := hd
      rw [if_neg (by omega), if_neg (by omega), if_neg (by omega), if_pos (by omega),
        ofNat_eq a (by omega), ofNat_eq b (by omega), ofNat_eq d (by omega)]
    | @four a b d e _ ha ha' hb hd he hc =>
      have hlong : ¬(_ ∧ _) := fun h => hwell (.overlongFour h.1 hb h.2 hd he)
      have hlast : ¬(_ ∧ _) := fun h => hwell (.pastLastPlane h.1 hb h.2 hd he)
      have hplane : ¬_ := fun h => hwell (.noPlane h ha' hb hd he)
      obtain ⟨hb, hb'⟩ := hb
      obtain ⟨hd, hd'⟩ := hd
      obtain ⟨he, he'⟩ := he
      rw [if_neg (by omega), if_neg (by omega), if_neg (by omega), if_neg (by omega),
        ofNat_eq a (by omega), ofNat_eq b (by omega), ofNat_eq d (by omega),
        ofNat_eq e (by omega)]

/-! ## UTF-16 and UTF-32 -/

section Host

variable (hostIsLittleEndian : Bool) (endian : Endian)

/-- The code unit of two bytes. -/
def unitOf (x y : UInt8) : Nat :=
  if endian.isLittle hostIsLittleEndian then y.toNat * 0x100 + x.toNat
  else x.toNat * 0x100 + y.toNat

/-- A unit that is no high surrogate, or a pair of surrogates, and the number it spells. -/
inductive Utf16Reads : List UInt8 → Nat → Prop where
  | single {x y : UInt8} {c : Nat} :
      ¬(0xd800 ≤ unitOf hostIsLittleEndian endian x y ∧
        unitOf hostIsLittleEndian endian x y ≤ 0xdbff) →
      c = unitOf hostIsLittleEndian endian x y → Utf16Reads [x, y] c
  | pair {x y z w : UInt8} {c : Nat} :
      0xd800 ≤ unitOf hostIsLittleEndian endian x y →
      unitOf hostIsLittleEndian endian x y ≤ 0xdbff →
      0xdc00 ≤ unitOf hostIsLittleEndian endian z w →
      unitOf hostIsLittleEndian endian z w ≤ 0xdfff →
      c = 0x10000 + ((unitOf hostIsLittleEndian endian x y - 0xd800) * 0x400 +
        (unitOf hostIsLittleEndian endian z w - 0xdc00)) →
      Utf16Reads [x, y, z, w] c

/-- A low surrogate that no high surrogate comes before. -/
inductive Utf16Malformed : List UInt8 → Prop where
  | loneLow {x y : UInt8} : 0xdc00 ≤ unitOf hostIsLittleEndian endian x y →
      unitOf hostIsLittleEndian endian x y ≤ 0xdfff → Utf16Malformed [x, y]

theorem unitOf_lt (x y : UInt8) : unitOf hostIsLittleEndian endian x y < 0x10000 := by
  have := x.toNat_lt
  have := y.toNat_lt
  rw [unitOf]
  split <;> omega

theorem shiftIn_eight (x y : Nat) (hy : y < 0x100) : (x <<< 8) ||| y = x * 0x100 + y := by
  rw [← Nat.shiftLeft_add_eq_or_of_lt hy, Nat.shiftLeft_eq]

variable {hostIsLittleEndian endian}

theorem getElem?_drop_cons {bytes rest : List UInt8} {k : Nat} {b : UInt8}
    (h : bytes.drop k = b :: rest) : bytes[k]? = some b ∧ bytes.drop (k + 1) = rest := by
  refine ⟨?_, ?_⟩
  · rw [← List.head?_drop, h, List.head?_cons]
  · rw [← List.drop_drop, h, List.drop_one, List.tail_cons]

theorem readByte_of_drop {bytes rest : List UInt8} {k : Nat} {b : UInt8}
    (h : bytes.drop k = b :: rest) :
    readByte (.atByte bytes k) = some (b.toNat, .atByte bytes (k + 1)) := by
  rw [readByte_atByte, (getElem?_drop_cons h).1]
  rfl

variable {bytes : List UInt8}

theorem readByte_of_drop_nil {k : Nat} (h : bytes.drop k = []) :
    readByte (.atByte bytes k) = none := by
  rw [readByte_atByte, List.getElem?_eq_none_iff.mpr (List.drop_eq_nil_iff.mp h)]
  rfl

theorem readUnit_eq_some {k u : Nat} {r : BitReader} :
    readUnit hostIsLittleEndian endian (.atByte bytes k) = some (u, r) ↔
      ∃ x y, [x, y] <+: bytes.drop k ∧ u = unitOf hostIsLittleEndian endian x y ∧
        r = .atByte bytes (k + 2) := by
  rw [readUnit]
  cases hx : bytes.drop k with
  | nil =>
    rw [readByte_of_drop_nil hx]
    constructor
    · exact fun h => nomatch h
    · rintro ⟨x, y, hstart, -⟩
      exact absurd (List.prefix_nil.mp hstart) (List.cons_ne_nil _ _)
  | cons x rest =>
    rw [readByte_of_drop hx]
    cases rest with
    | nil =>
      show ((readByte (.atByte bytes (k + 1))).bind _) = _ ↔ _
      rw [readByte_of_drop_nil (getElem?_drop_cons hx).2]
      constructor
      · exact fun h => nomatch h
      · rintro ⟨x', y, hstart, -⟩
        obtain ⟨-, hnil⟩ := List.cons_prefix_cons.mp hstart
        exact absurd (List.prefix_nil.mp hnil) (List.cons_ne_nil _ _)
    | cons y rest =>
      show ((readByte (.atByte bytes (k + 1))).bind _) = _ ↔ _
      rw [readByte_of_drop (getElem?_drop_cons hx).2]
      have hunit : (if endian.isLittle hostIsLittleEndian then (y.toNat <<< 8) ||| x.toNat
          else (x.toNat <<< 8) ||| y.toNat) = unitOf hostIsLittleEndian endian x y := by
        rw [unitOf, shiftIn_eight _ _ x.toNat_lt, shiftIn_eight _ _ y.toNat_lt]
      show some ((if endian.isLittle hostIsLittleEndian then (y.toNat <<< 8) ||| x.toNat
        else (x.toNat <<< 8) ||| y.toNat), BitReader.atByte bytes (k + 1 + 1)) = _ ↔ _
      rw [hunit]
      constructor
      · intro h
        obtain ⟨rfl, rfl⟩ := Prod.mk.inj (Option.some.inj h)
        exact ⟨x, y, ⟨rest, rfl⟩, rfl, rfl⟩
      · rintro ⟨x', y', hstart, rfl, rfl⟩
        obtain ⟨rfl, hstart'⟩ := List.cons_prefix_cons.mp hstart
        obtain ⟨rfl, -⟩ := List.cons_prefix_cons.mp hstart'
        rfl

theorem readUnit_of_prefix {k : Nat} {x y : UInt8} (h : [x, y] <+: bytes.drop k) :
    readUnit hostIsLittleEndian endian (.atByte bytes k) =
      some (unitOf hostIsLittleEndian endian x y, .atByte bytes (k + 2)) :=
  readUnit_eq_some.mpr ⟨x, y, h, rfl, rfl⟩

theorem pairValue {u u' : Nat} (h : 0xd800 ≤ u ∧ u ≤ 0xdbff) (h' : 0xdc00 ≤ u' ∧ u' ≤ 0xdfff) :
    0x10000 + (((u &&& 0x3ff) <<< 10) ||| (u' &&& 0x3ff)) =
      0x10000 + ((u - 0xd800) * 0x400 + (u' - 0xdc00)) := by
  have hmask : ∀ n, n &&& 0x3ff = n % 0x400 := fun n => and_mask n 10
  rw [hmask, hmask, ← Nat.shiftLeft_add_eq_or_of_lt (Nat.mod_lt _ (by decide)), Nat.shiftLeft_eq]
  omega

theorem decodeUtf16_eq_some {c : Nat} {r : BitReader} :
    decodeUtf16 hostIsLittleEndian (.atByte bytes 0) endian = some (c, r) ↔
      ∃ code, Utf16Reads hostIsLittleEndian endian code c ∧ code <+: bytes ∧
        r = .atByte bytes code.length := by
  constructor
  · intro h
    obtain ⟨⟨u, r₁⟩, hunit, h⟩ := Option.bind_eq_some_iff.mp h
    obtain ⟨x, y, hxy, rfl, rfl⟩ := readUnit_eq_some.mp hunit
    dsimp only at h
    split at h
    · next hsingle =>
      obtain ⟨rfl, rfl⟩ := Prod.mk.inj (Option.some.inj h)
      exact ⟨[x, y], .single hsingle rfl, hxy, rfl⟩
    · next hhigh =>
      obtain ⟨⟨u', r₂⟩, hunit', h⟩ := Option.bind_eq_some_iff.mp h
      obtain ⟨z, w, hzw, rfl, rfl⟩ := readUnit_eq_some.mp hunit'
      dsimp only at h
      split at h
      · exact nomatch h
      · next hlow =>
        obtain ⟨rfl, rfl⟩ := Prod.mk.inj (Option.some.inj h)
        obtain ⟨hhigh, hhigh'⟩ := not_not.mp hhigh
        obtain ⟨hlow, hlow'⟩ := not_not.mp hlow
        refine ⟨[x, y, z, w], .pair hhigh hhigh' hlow hlow' ?_, ?_, rfl⟩
        · rw [pairValue ⟨hhigh, hhigh'⟩ ⟨hlow, hlow'⟩]
        · obtain ⟨rest, rfl⟩ := hxy
          exact (List.prefix_append_right_inj [x, y]).mpr hzw
  · rintro ⟨code, hreads, hstart, rfl⟩
    cases hreads with
    | @single x y _ hsingle hc =>
      rw [decodeUtf16, readUnit_of_prefix (k := 0) hstart]
      show (if ¬_ then _ else _) = _
      rw [if_pos hsingle, hc]
      rfl
    | @pair x y z w _ hhigh hhigh' hlow hlow' hc =>
      obtain ⟨rest, rfl⟩ := hstart
      have hxy : [x, y] <+: ([x, y, z, w] ++ rest).drop 0 := ⟨z :: w :: rest, rfl⟩
      have hzw : [z, w] <+: ([x, y, z, w] ++ rest).drop (0 + 2) := ⟨rest, rfl⟩
      rw [decodeUtf16, readUnit_of_prefix hxy]
      show (if ¬_ then _ else (readUnit _ _ _).bind _) = _
      rw [if_neg (not_not.mpr ⟨hhigh, hhigh'⟩), readUnit_of_prefix hzw]
      show (if ¬_ then _ else _) = _
      rw [if_neg (not_not.mpr ⟨hlow, hlow'⟩), pairValue ⟨hhigh, hhigh'⟩ ⟨hlow, hlow'⟩, hc]
      rfl

theorem encodeUnit_unitOf (x y : UInt8) :
    encodeUnit hostIsLittleEndian endian (unitOf hostIsLittleEndian endian x y) = [x, y] := by
  have hx := x.toNat_lt
  have hy := y.toNat_lt
  have hmask : ∀ n, n &&& 0xff = n % 0x100 := fun n => and_mask n 8
  have hshift : ∀ n, n >>> 8 = n / 0x100 := fun n => Nat.shiftRight_eq_div_pow n 8
  rw [encodeUnit, unitOf]
  simp only [hmask, hshift]
  split
  · rw [ofNat_eq x (by omega), ofNat_eq y (by omega)]
  · rw [ofNat_eq x (by omega), ofNat_eq y (by omega)]

theorem exists_unitOf (hostIsLittleEndian : Bool) (endian : Endian) {u : Nat}
    (hu : u < 0x10000) : ∃ x y, unitOf hostIsLittleEndian endian x y = u := by
  have hhigh := toNat_ofNat (n := u / 0x100) (by omega)
  have hlow := toNat_ofNat (n := u % 0x100) (by omega)
  by_cases hlittle : endian.isLittle hostIsLittleEndian
  · refine ⟨UInt8.ofNat (u % 0x100), UInt8.ofNat (u / 0x100), ?_⟩
    rw [unitOf, if_pos hlittle]
    omega
  · refine ⟨UInt8.ofNat (u / 0x100), UInt8.ofNat (u % 0x100), ?_⟩
    rw [unitOf, if_neg hlittle]
    omega

theorem surrogate_or {b x : Nat} (hx : x < 0x400) : (b * 0x400) ||| x = b * 0x400 + x := by
  rw [show b * 0x400 = b <<< 10 from (Nat.shiftLeft_eq b 10).symm,
    ← Nat.shiftLeft_add_eq_or_of_lt hx]

theorem encodeUtf16_eq (c : Nat) : encodeUtf16 hostIsLittleEndian c endian =
      if c > 0x10ffff ∨ (0xd800 ≤ c ∧ c ≤ 0xdfff) then none
      else if c < 0x10000 then some (encodeUnit hostIsLittleEndian endian c)
      else some (encodeUnit hostIsLittleEndian endian (0xd800 + (c - 0x10000) / 0x400) ++
        encodeUnit hostIsLittleEndian endian (0xdc00 + (c - 0x10000) % 0x400)) := by
  have hmask : ∀ n, n &&& 0x3ff = n % 0x400 := fun n => and_mask n 10
  have hshift : ∀ n, n >>> 10 = n / 0x400 := fun n => Nat.shiftRight_eq_div_pow n 10
  rw [encodeUtf16]
  split
  · rfl
  dsimp only
  split
  · rw [List.flatMap_cons, List.flatMap_nil, List.append_nil]
  · rw [List.flatMap_cons, List.flatMap_cons, List.flatMap_nil, List.append_nil, hmask, hshift,
      show 0xd800 = 54 * 0x400 from rfl, show 0xdc00 = 55 * 0x400 from rfl,
      surrogate_or (by omega), surrogate_or (by omega)]

theorem encodeUtf16_eq_some {c : Nat} {code : List UInt8} :
    encodeUtf16 hostIsLittleEndian c endian = some code ↔
      Utf16Reads hostIsLittleEndian endian code c ∧
        ¬Utf16Malformed hostIsLittleEndian endian code := by
  rw [encodeUtf16_eq]
  constructor
  · intro h
    split_ifs at h with hnone hunit
    · obtain ⟨x, y, rfl⟩ := exists_unitOf hostIsLittleEndian endian hunit
      rw [encodeUnit_unitOf] at h
      obtain rfl := Option.some.inj h
      refine ⟨.single (by omega) rfl, fun hbad => ?_⟩
      cases hbad
      omega
    · obtain ⟨x, y, hxy⟩ := exists_unitOf hostIsLittleEndian endian
        (show 0xd800 + (c - 0x10000) / 0x400 < 0x10000 by omega)
      obtain ⟨z, w, hzw⟩ := exists_unitOf hostIsLittleEndian endian
        (show 0xdc00 + (c - 0x10000) % 0x400 < 0x10000 by omega)
      rw [← hxy, ← hzw, encodeUnit_unitOf, encodeUnit_unitOf] at h
      obtain rfl := Option.some.inj h
      refine ⟨.pair (by omega) (by omega) (by omega) (by omega) (by omega), fun hbad => ?_⟩
      cases hbad
  · rintro ⟨hreads, hwell⟩
    cases hreads with
    | @single x y _ hsingle hc =>
      have hlow : ¬(_ ∧ _) := fun h => hwell (.loneLow h.1 h.2)
      have hlt := unitOf_lt hostIsLittleEndian endian x y
      rw [if_neg (by omega), if_pos (by omega), hc, encodeUnit_unitOf]
    | @pair x y z w _ hhigh hhigh' hlow hlow' hc =>
      rw [if_neg (by omega), if_neg (by omega),
        show 0xd800 + (c - 0x10000) / 0x400 = unitOf hostIsLittleEndian endian x y by omega,
        show 0xdc00 + (c - 0x10000) % 0x400 = unitOf hostIsLittleEndian endian z w by omega,
        encodeUnit_unitOf, encodeUnit_unitOf]
      rfl

/-- The number of four bytes, the highest first. -/
def bigWord (x y z w : UInt8) : Nat :=
  ((x.toNat * 0x100 + y.toNat) * 0x100 + z.toNat) * 0x100 + w.toNat

/-- The number of four bytes in a byte order. -/
def wordOf (hostIsLittleEndian : Bool) (endian : Endian) (x y z w : UInt8) : Nat :=
  if endian.isLittle hostIsLittleEndian then bigWord w z y x else bigWord x y z w

inductive Utf32Reads (hostIsLittleEndian : Bool) (endian : Endian) : List UInt8 → Nat → Prop where
  | word {x y z w : UInt8} {c : Nat} : c = wordOf hostIsLittleEndian endian x y z w →
      Utf32Reads hostIsLittleEndian endian [x, y, z, w] c

/-- Four bytes whose number is no scalar value. -/
inductive Utf32Malformed (hostIsLittleEndian : Bool) (endian : Endian) : List UInt8 → Prop where
  | noScalar {x y z w : UInt8} : ¬IsScalar (wordOf hostIsLittleEndian endian x y z w) →
      Utf32Malformed hostIsLittleEndian endian [x, y, z, w]

theorem shiftIn_word (x y z w : UInt8) :
    (x.toNat <<< 24) ||| (y.toNat <<< 16) ||| (z.toNat <<< 8) ||| w.toNat = bigWord x y z w := by
  have hsplit : (x.toNat <<< 24) ||| (y.toNat <<< 16) ||| (z.toNat <<< 8) =
      ((x.toNat <<< 8 ||| y.toNat) <<< 8 ||| z.toNat) <<< 8 := by
    simp only [Nat.shiftLeft_or_distrib, ← Nat.shiftLeft_add]
  rw [hsplit, shiftIn_eight _ _ w.toNat_lt, shiftIn_eight _ _ z.toNat_lt,
    shiftIn_eight _ _ y.toNat_lt, bigWord]

theorem decodeUtf32_word (x y z w : UInt8) (rest : List UInt8) :
    decodeUtf32 hostIsLittleEndian (.atByte (x :: y :: z :: w :: rest) 0) endian =
      some (wordOf hostIsLittleEndian endian x y z w,
        .atByte (x :: y :: z :: w :: rest) (0 + 1 + 1 + 1 + 1)) := by
  rw [decodeUtf32, wordOf, ← shiftIn_word, ← shiftIn_word]
  simp only [readByte_atByte, List.getElem?_cons_zero, List.getElem?_cons_succ, Option.map_some,
    Option.bind_eq_bind, Option.bind_some]

theorem decodeUtf32_short (h : bytes.length < 4) :
    decodeUtf32 hostIsLittleEndian (.atByte bytes 0) endian = none := by
  rw [decodeUtf32]
  simp only [readByte_atByte]
  rcases bytes with _ | ⟨x, _ | ⟨y, _ | ⟨z, _ | ⟨w, rest⟩⟩⟩⟩
  · rfl
  · rfl
  · rfl
  · rfl
  · simp only [List.length_cons] at h
    omega

theorem decodeUtf32_eq_some {c : Nat} {r : BitReader} :
    decodeUtf32 hostIsLittleEndian (.atByte bytes 0) endian = some (c, r) ↔
      ∃ code, Utf32Reads hostIsLittleEndian endian code c ∧ code <+: bytes ∧
        r = .atByte bytes code.length := by
  constructor
  · intro h
    match bytes, h with
    | x :: y :: z :: w :: rest, h =>
      rw [decodeUtf32_word] at h
      obtain ⟨rfl, rfl⟩ := Prod.mk.inj (Option.some.inj h)
      exact ⟨[x, y, z, w], .word rfl, ⟨rest, rfl⟩, rfl⟩
    | [], h | [_], h | [_, _], h | [_, _, _], h =>
      rw [decodeUtf32_short (by simp)] at h
      exact nomatch h
  · rintro ⟨code, hreads, hstart, rfl⟩
    cases hreads with
    | word hc =>
      obtain ⟨rest, rfl⟩ := hstart
      rw [hc]
      exact decodeUtf32_word _ _ _ _ rest

/-- The bytes of a number, the highest first. -/
def wordBytes (c : Nat) : List UInt8 :=
  [UInt8.ofNat (c / 0x1000000 % 0x100), UInt8.ofNat (c / 0x10000 % 0x100),
    UInt8.ofNat (c / 0x100 % 0x100), UInt8.ofNat (c % 0x100)]

theorem wordBytes_bigWord (x y z w : UInt8) : wordBytes (bigWord x y z w) = [x, y, z, w] := by
  have hx := x.toNat_lt
  have hy := y.toNat_lt
  have hz := z.toNat_lt
  have hw := w.toNat_lt
  rw [wordBytes, bigWord, ofNat_eq x (by omega), ofNat_eq y (by omega), ofNat_eq z (by omega),
    ofNat_eq w (by omega)]

theorem exists_bigWord {c : Nat} (hc : c < 0x100000000) : ∃ x y z w, bigWord x y z w = c := by
  refine ⟨UInt8.ofNat (c / 0x1000000 % 0x100), UInt8.ofNat (c / 0x10000 % 0x100),
    UInt8.ofNat (c / 0x100 % 0x100), UInt8.ofNat (c % 0x100), ?_⟩
  rw [bigWord, toNat_ofNat (by omega), toNat_ofNat (by omega), toNat_ofNat (by omega),
    toNat_ofNat (by omega)]
  omega

theorem encodeUtf32_eq (c : Nat) : encodeUtf32 hostIsLittleEndian c endian =
      if c > 0x10ffff ∨ (0xd800 ≤ c ∧ c ≤ 0xdfff) then none
      else some (if endian.isLittle hostIsLittleEndian then (wordBytes c).reverse
        else wordBytes c) := by
  have hmask : ∀ n, n &&& 0xff = n % 0x100 := fun n => and_mask n 8
  have hshift : ∀ n k, n >>> k = n / 2 ^ k := Nat.shiftRight_eq_div_pow
  rw [encodeUtf32]
  simp only [hmask, hshift, Nat.reducePow, wordBytes, List.reverse_cons, List.reverse_nil,
    List.nil_append, List.cons_append]

theorem wordBytes_wordOf (x y z w : UInt8) : (if endian.isLittle hostIsLittleEndian then
        (wordBytes (wordOf hostIsLittleEndian endian x y z w)).reverse
      else wordBytes (wordOf hostIsLittleEndian endian x y z w)) = [x, y, z, w] := by
  rw [wordOf]
  split
  · rw [wordBytes_bigWord]
    rfl
  · exact wordBytes_bigWord x y z w

theorem exists_wordOf (hostIsLittleEndian : Bool) (endian : Endian) {c : Nat}
    (hc : c < 0x100000000) : ∃ x y z w, wordOf hostIsLittleEndian endian x y z w = c := by
  obtain ⟨x, y, z, w, hword⟩ := exists_bigWord hc
  by_cases hlittle : endian.isLittle hostIsLittleEndian
  · exact ⟨w, z, y, x, by rw [wordOf, if_pos hlittle, hword]⟩
  · exact ⟨x, y, z, w, by rw [wordOf, if_neg hlittle, hword]⟩

theorem encodeUtf32_eq_some {c : Nat} {code : List UInt8} :
    encodeUtf32 hostIsLittleEndian c endian = some code ↔
      Utf32Reads hostIsLittleEndian endian code c ∧
        ¬Utf32Malformed hostIsLittleEndian endian code := by
  rw [encodeUtf32_eq]
  constructor
  · intro h
    split at h
    · exact nomatch h
    · next hscalar =>
      obtain ⟨x, y, z, w, rfl⟩ := exists_wordOf hostIsLittleEndian endian
        (show c < 0x100000000 by omega)
      rw [wordBytes_wordOf] at h
      obtain rfl := Option.some.inj h
      refine ⟨.word rfl, fun hbad => ?_⟩
      cases hbad with
      | noScalar hbad =>
        rw [IsScalar] at hbad
        omega
  · rintro ⟨hreads, hwell⟩
    cases hreads with
    | @word x y z w _ hc =>
      have hscalar : IsScalar c := not_not.mp fun h => hwell (.noScalar (hc ▸ h))
      obtain ⟨hlast, hsurrogate⟩ := hscalar
      rw [if_neg (by omega), hc, wordBytes_wordOf]

end Host

/-! ## The codecs -/

/-- The encodings of text fields. -/
inductive Utf where
  | utf8
  | utf16 (endian : Endian)
  | utf32 (endian : Endian)

namespace Utf

variable (hostIsLittleEndian : Bool)

def encode : Utf → Nat → Option (List UInt8)
  | .utf8, c => encodeUtf8 c
  | .utf16 endian, c => encodeUtf16 hostIsLittleEndian c endian
  | .utf32 endian, c => encodeUtf32 hostIsLittleEndian c endian

def decode : Utf → BitReader → Option (Nat × BitReader)
  | .utf8, r => decodeUtf8 r
  | .utf16 endian, r => decodeUtf16 hostIsLittleEndian r endian
  | .utf32 endian, r => decodeUtf32 hostIsLittleEndian r endian

def Reads : Utf → List UInt8 → Nat → Prop
  | .utf8 => Utf8Reads
  | .utf16 endian => Utf16Reads hostIsLittleEndian endian
  | .utf32 endian => Utf32Reads hostIsLittleEndian endian

/-- The code units that have the right shape and stand for no scalar value. -/
def Malformed : Utf → List UInt8 → Prop
  | .utf8 => Utf8Malformed
  | .utf16 endian => Utf16Malformed hostIsLittleEndian endian
  | .utf32 endian => Utf32Malformed hostIsLittleEndian endian

/-- Decoding at the start of some bytes takes so many of them and gives this code point. -/
def Decodes (utf : Utf) (bytes : List UInt8) (c n : Nat) : Prop :=
  ∃ r, utf.decode hostIsLittleEndian (.atByte bytes 0) = some (c, r) ∧ r.pos = 8 * n

/-- Decoding some bytes is the inverse of encoding. -/
def Exact (utf : Utf) (bytes : List UInt8) : Prop :=
  ∀ c n, utf.Decodes hostIsLittleEndian bytes c n ↔
    IsScalar c ∧ ∃ code, utf.encode hostIsLittleEndian c = some code ∧ code.length = n ∧
      code <+: bytes

variable {hostIsLittleEndian}

theorem decode_eq_some {utf : Utf} {bytes : List UInt8} {c : Nat} {r : BitReader} :
    utf.decode hostIsLittleEndian (.atByte bytes 0) = some (c, r) ↔
      ∃ code, utf.Reads hostIsLittleEndian code c ∧ code <+: bytes ∧
        r = .atByte bytes code.length := by
  cases utf with
  | utf8 => exact decodeUtf8_eq_some
  | utf16 endian => exact decodeUtf16_eq_some
  | utf32 endian => exact decodeUtf32_eq_some

theorem encode_eq_some {utf : Utf} {c : Nat} {code : List UInt8} :
    utf.encode hostIsLittleEndian c = some code ↔
      utf.Reads hostIsLittleEndian code c ∧ ¬utf.Malformed hostIsLittleEndian code := by
  cases utf with
  | utf8 => exact encodeUtf8_eq_some
  | utf16 endian => exact encodeUtf16_eq_some
  | utf32 endian => exact encodeUtf32_eq_some

theorem decodes_iff {utf : Utf} {bytes : List UInt8} {c n : Nat} :
    utf.Decodes hostIsLittleEndian bytes c n ↔
      ∃ code, utf.Reads hostIsLittleEndian code c ∧ code.length = n ∧ code <+: bytes := by
  constructor
  · rintro ⟨r, hdecode, hpos⟩
    obtain ⟨code, hreads, hstart, rfl⟩ := decode_eq_some.mp hdecode
    refine ⟨code, hreads, ?_, hstart⟩
    have hpos : 8 * code.length = 8 * n := hpos
    omega
  · rintro ⟨code, hreads, rfl, hstart⟩
    exact ⟨_, decode_eq_some.mpr ⟨code, hreads, hstart, rfl⟩, rfl⟩

theorem exists_encode_iff (hostIsLittleEndian : Bool) (utf : Utf) (c : Nat) :
    (∃ code, utf.encode hostIsLittleEndian c = some code) ↔ IsScalar c := by
  have hnone : ∀ x : Option (List UInt8), (∃ code, x = some code) →
      ((∃ code, (if c > 0x10ffff ∨ (0xd800 ≤ c ∧ c ≤ 0xdfff) then none else x) = some code) ↔
        IsScalar c) := by
    intro x hx
    rw [IsScalar]
    split
    · exact iff_of_false (fun h => nomatch h) (by omega)
    · exact iff_of_true hx (by omega)
  cases utf with
  | utf8 =>
    show (∃ code, encodeUtf8 c = some code) ↔ _
    rw [encodeUtf8_eq]
    refine hnone _ ?_
    split_ifs <;> exact ⟨_, rfl⟩
  | utf16 endian =>
    show (∃ code, encodeUtf16 _ c endian = some code) ↔ _
    rw [encodeUtf16_eq]
    refine hnone _ ?_
    split <;> exact ⟨_, rfl⟩
  | utf32 endian =>
    show (∃ code, encodeUtf32 _ c endian = some code) ↔ _
    rw [encodeUtf32_eq]
    exact hnone _ ⟨_, rfl⟩

theorem exists_reads {utf : Utf} {code : List UInt8}
    (h : utf.Malformed hostIsLittleEndian code) : ∃ c, utf.Reads hostIsLittleEndian code c := by
  cases utf with
  | utf8 =>
    cases h with
    | overlongTwo ha ha' hb => exact ⟨_, .two ha (by omega) hb rfl⟩
    | overlongThree ha hb hb' hd => exact ⟨_, .three (by omega) (by omega) hb hd rfl⟩
    | surrogate ha hb hb' hd => exact ⟨_, .three (by omega) (by omega) hb hd rfl⟩
    | overlongFour ha hb hb' hd he => exact ⟨_, .four (by omega) (by omega) hb hd he rfl⟩
    | pastLastPlane ha hb hb' hd he => exact ⟨_, .four (by omega) (by omega) hb hd he rfl⟩
    | noPlane ha ha' hb hd he => exact ⟨_, .four (by omega) ha' hb hd he rfl⟩
  | utf16 endian =>
    cases h with
    | loneLow hlow hlow' => exact ⟨_, .single (by omega) rfl⟩
  | utf32 endian =>
    cases h with
    | noScalar hscalar => exact ⟨_, .word rfl⟩

end Utf

/-- Decoding is the inverse of encoding on the bytes that start with no malformed sequence, and on
every code that the encoder writes. -/
theorem utf_decoding_exact_iff (hostIsLittleEndian : Bool) (utf : Utf) :
    (∀ bytes, utf.Exact hostIsLittleEndian bytes ↔
      ∀ start, start <+: bytes → ¬utf.Malformed hostIsLittleEndian start) ∧
    ∀ c, IsScalar c → ∃ code, utf.encode hostIsLittleEndian c = some code ∧
      ∀ rest, utf.Decodes hostIsLittleEndian (code ++ rest) c code.length := by
  refine ⟨fun bytes => ⟨fun hexact start hstart hbad => ?_, fun hwell c n => ?_⟩,
    fun c hscalar => ?_⟩
  · obtain ⟨c, hreads⟩ := Utf.exists_reads hbad
    obtain ⟨-, code, hencode, hlen, hcode⟩ :=
      (hexact c start.length).mp (Utf.decodes_iff.mpr ⟨start, hreads, rfl, hstart⟩)
    obtain rfl := (List.prefix_of_prefix_length_le hcode hstart hlen.le).eq_of_length hlen
    exact (Utf.encode_eq_some.mp hencode).2 hbad
  · rw [Utf.decodes_iff]
    constructor
    · rintro ⟨code, hreads, hlen, hstart⟩
      have hencode := Utf.encode_eq_some.mpr ⟨hreads, hwell code hstart⟩
      have hscalar := (Utf.exists_encode_iff hostIsLittleEndian utf c).mp ⟨code, hencode⟩
      exact ⟨hscalar, code, hencode, hlen, hstart⟩
    · rintro ⟨-, code, hencode, hlen, hstart⟩
      exact ⟨code, (Utf.encode_eq_some.mp hencode).1, hlen, hstart⟩
  · obtain ⟨code, hencode⟩ := (Utf.exists_encode_iff hostIsLittleEndian utf c).mpr hscalar
    exact ⟨code, hencode, fun rest => Utf.decodes_iff.mpr
      ⟨code, (Utf.encode_eq_some.mp hencode).1, rfl, List.prefix_append code rest⟩⟩

/-- Zero is read off its overlong form. -/
theorem overlong_zero_read : ¬Utf.utf8.Exact false [0xc0, 0x80] := by
  intro hexact
  have hreads : Utf8Reads [0xc0, 0x80] 0 := .two (by decide) (by decide) ⟨by decide, by decide⟩ rfl
  obtain ⟨-, code, hencode, hlen, -⟩ :=
    (hexact 0 2).mp (Utf.decodes_iff.mpr ⟨_, hreads, rfl, List.prefix_rfl⟩)
  obtain rfl : [0] = code := Option.some.inj hencode
  exact absurd hlen (by decide)

end Fz.Bitstr
