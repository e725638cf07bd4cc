import Fz.Bitstr.UtfCodec
import Mathlib.Data.List.Forall2

/-!
# Scanning text

The first byte of a code point decides how many bytes follow and in which range each of them lies
(`tailRanges`), and the scan compares byte after byte with its range.  So the scan stops at a byte
exactly when the bytes up to it can be completed to a code point and the bytes with it cannot.  It
looks at one code point; the validator repeats it.
-/

namespace Fz.Bitstr

open Fz.Base Fz.Terms

/-- The bytes of one code point. -/
def Utf8Char (code : List UInt8) : Prop := ∃ c, IsScalar c ∧ encodeUtf8 c = some code

/-- Text: the encodings of scalar values, one after another. -/
def Utf8Text (bytes : List UInt8) : Prop :=
  ∃ codes : List (List UInt8), (∀ code ∈ codes, Utf8Char code) ∧ bytes = codes.flatten

/-- The first bytes agree with those of some code point. -/
def Follows (bytes : List UInt8) (k : Nat) : Prop := ∃ code, Utf8Char code ∧ bytes.take k <+: code

/-- The bytes start with no code point, and agree with one up to this offset and no further. -/
structure StopsAt (bytes : List UInt8) (offset : Nat) : Prop where
  ne_nil : bytes ≠ []
  no_start : ∀ code, Utf8Char code → ¬code <+: bytes
  offset_le : offset ≤ bytes.length
  follows : Follows bytes offset
  longest : offset = bytes.length ∨ ¬Follows bytes (offset + 1)

/-! ## Ranges -/

def InRange (range : UInt8 × UInt8) (b : UInt8) : Prop := range.1 ≤ b ∧ b ≤ range.2

instance (range : UInt8 × UInt8) (b : UInt8) : Decidable (InRange range b) :=
  inferInstanceAs (Decidable (_ ∧ _))

/-- Compare the bytes from an index on with their ranges. -/
def scanRanges (total : Nat) : Nat → List (UInt8 × UInt8) → List UInt8 → Except Nat Unit
  | _, [], _ => .ok ()
  | _, _ :: _, [] => .error total
  | k, range :: ranges, b :: bs =>
    if InRange range b then scanRanges total (k + 1) ranges bs else .error k

/-- The ranges of the bytes after a first byte. -/
def tailRanges (first : UInt8) : Option (List (UInt8 × UInt8)) :=
  if first ≤ 0x7f then some []
  else if 0xc2 ≤ first ∧ first ≤ 0xdf then some [(0x80, 0xbf)]
  else if first = 0xe0 then some [(0xa0, 0xbf), (0x80, 0xbf)]
  else if (0xe1 ≤ first ∧ first ≤ 0xec) ∨ (0xee ≤ first ∧ first ≤ 0xef) then
    some [(0x80, 0xbf), (0x80, 0xbf)]
  else if first = 0xed then some [(0x80, 0x9f), (0x80, 0xbf)]
  else if first = 0xf0 then some [(0x90, 0xbf), (0x80, 0xbf), (0x80, 0xbf)]
  else if 0xf1 ≤ first ∧ first ≤ 0xf3 then some [(0x80, 0xbf), (0x80, 0xbf), (0x80, 0xbf)]
  else if first = 0xf4 then some [(0x80, 0x8f), (0x80, 0xbf), (0x80, 0xbf)]
  else none

theorem scanRanges_spec (total k : Nat) (ranges : List (UInt8 × UInt8)) (bs : List UInt8) :
    match scanRanges total k ranges bs with
    | .ok _ => ∃ tail, List.Forall₂ InRange ranges tail ∧ tail <+: bs
    | .error e => ∃ passed range left good rest, ranges = passed ++ range :: left ∧
        bs = good ++ rest ∧ List.Forall₂ InRange passed good ∧
        ((rest = [] ∧ e = total) ∨
          ∃ b more, rest = b :: more ∧ ¬InRange range b ∧ e = k + good.length) := by
  induction ranges generalizing k bs with
  | nil => exact ⟨[], .nil, List.nil_prefix⟩
  | cons range ranges ih =>
    cases bs with
    | nil => exact ⟨[], range, ranges, [], [], rfl, rfl, .nil, .inl ⟨rfl, rfl⟩⟩
    | cons b bs =>
      rw [scanRanges]
      by_cases hb : InRange range b
      · rw [if_pos hb]
        have hnext := ih (k + 1) bs
        cases hscan : scanRanges total (k + 1) ranges bs with
        | ok u =>
          rw [hscan] at hnext
          obtain ⟨tail, htail, hstart⟩ := hnext
          exact ⟨b :: tail, .cons hb htail, List.cons_prefix_cons.mpr ⟨rfl, hstart⟩⟩
        | error e =>
          rw [hscan] at hnext
          obtain ⟨passed, range', left, good, rest, rfl, rfl, hgood, hstop⟩ := hnext
          refine ⟨range :: passed, range', left, b :: good, rest, rfl, rfl, .cons hb hgood, ?_⟩
          rcases hstop with hend | ⟨b', more, hrest, hout, he⟩
          · exact .inl hend
          · refine .inr ⟨b', more, hrest, hout, ?_⟩
            rw [he, List.length_cons]
            omega
      · rw [if_neg hb]
        exact ⟨[], range, ranges, [], b :: bs, rfl, rfl, .nil, .inr ⟨b, bs, rfl, hb, rfl⟩⟩

theorem utf8ByteIn_bind (bytes : List UInt8) (index : Nat) (lo hi : UInt8)
    (ranges : List (UInt8 × UInt8)) (f : Unit → Except Nat Nat) :
    (utf8ByteIn bytes index lo hi >>= fun _ =>
        scanRanges bytes.length (index + 1) ranges (bytes.drop (index + 1)) >>= f) =
      scanRanges bytes.length index ((lo, hi) :: ranges) (bytes.drop index) >>= f := by
  cases hbyte : bytes[index]? with
  | none =>
    rw [List.drop_of_length_le (List.getElem?_eq_none_iff.mp hbyte), utf8ByteIn, hbyte]
    rfl
  | some b =>
    obtain ⟨hlt, hb⟩ := List.getElem?_eq_some_iff.mp hbyte
    rw [List.drop_eq_getElem_cons hlt, hb, utf8ByteIn, hbyte, scanRanges]
    show ((if lo ≤ b ∧ b ≤ hi then _ else _) >>= _) = ((if lo ≤ b ∧ b ≤ hi then _ else _) >>= _)
    split
    · rfl
    · rfl

section Branches

variable (first : UInt8) (rest : List UInt8) (lo hi : UInt8) (f : Unit → Except Nat Nat)

theorem scan_two : (utf8ByteIn (first :: rest) 1 lo hi >>= f) =
      scanRanges (first :: rest).length 1 [(lo, hi)] rest >>= f :=
  utf8ByteIn_bind (first :: rest) 1 lo hi [] f

theorem scan_three :
    (do utf8ByteIn (first :: rest) 1 lo hi
        utf8Continuation (first :: rest) 2 >>= f) =
      scanRanges (first :: rest).length 1 [(lo, hi), (0x80, 0xbf)] rest >>= f := by
  have hlast := utf8ByteIn_bind (first :: rest) 2 0x80 0xbf [] f
  exact (bind_congr fun _ => hlast).trans (utf8ByteIn_bind (first :: rest) 1 lo hi _ f)

theorem scan_four :
    (do utf8ByteIn (first :: rest) 1 lo hi
        utf8Continuation (first :: rest) 2
        utf8Continuation (first :: rest) 3 >>= f) =
      scanRanges (first :: rest).length 1 [(lo, hi), (0x80, 0xbf), (0x80, 0xbf)] rest >>= f := by
  have hlast := utf8ByteIn_bind (first :: rest) 3 0x80 0xbf [] f
  have hthird := (bind_congr fun _ => hlast).trans
    (utf8ByteIn_bind (first :: rest) 2 0x80 0xbf _ f)
  exact (bind_congr fun _ => hthird).trans (utf8ByteIn_bind (first :: rest) 1 lo hi _ f)

end Branches

theorem utf8Prefix_cons (first : UInt8) (rest : List UInt8) :
    utf8Prefix (first :: rest) =
      match tailRanges first with
      | none => .error 0
      | some ranges =>
        scanRanges (first :: rest).length 1 ranges rest >>= fun _ => pure (ranges.length + 1) := by
  rw [utf8Prefix, tailRanges, List.head?_cons]
  dsimp only
  split
  · rfl
  split
  · exact scan_two first rest 0x80 0xbf _
  split
  · exact scan_three first rest 0xa0 0xbf _
  split
  · exact scan_three first rest 0x80 0xbf _
  split
  · exact scan_three first rest 0x80 0x9f _
  split
  · exact scan_four first rest 0x90 0xbf _
  split
  · exact scan_four first rest 0x80 0xbf _
  split
  · exact scan_four first rest 0x80 0x8f _
  · rfl

/-! ## The table and the encoder -/

theorem tailRanges_toNat (a : UInt8) : tailRanges a = if a.toNat ≤ 0x7f then some []
      else if 0xc2 ≤ a.toNat ∧ a.toNat ≤ 0xdf then some [(0x80, 0xbf)]
      else if a.toNat = 0xe0 then some [(0xa0, 0xbf), (0x80, 0xbf)]
      else if (0xe1 ≤ a.toNat ∧ a.toNat ≤ 0xec) ∨ (0xee ≤ a.toNat ∧ a.toNat ≤ 0xef) then
        some [(0x80, 0xbf), (0x80, 0xbf)]
      else if a.toNat = 0xed then some [(0x80, 0x9f), (0x80, 0xbf)]
      else if a.toNat = 0xf0 then some [(0x90, 0xbf), (0x80, 0xbf), (0x80, 0xbf)]
      else if 0xf1 ≤ a.toNat ∧ a.toNat ≤ 0xf3 then some [(0x80, 0xbf), (0x80, 0xbf), (0x80, 0xbf)]
      else if a.toNat = 0xf4 then some [(0x80, 0x8f), (0x80, 0xbf), (0x80, 0xbf)] else none := by
  simp only [tailRanges, UInt8.le_iff_toNat_le, ← UInt8.toNat_inj, UInt8.reduceToNat]

theorem inRange_toNat (range : UInt8 × UInt8) (b : UInt8) :
    InRange range b ↔ range.1.toNat ≤ b.toNat ∧ b.toNat ≤ range.2.toNat := by
  rw [InRange, UInt8.le_iff_toNat_le, UInt8.le_iff_toNat_le]

theorem inRange_of_tail {b : UInt8} (h : Tail b) : InRange (0x80, 0xbf) b := by
  rw [inRange_toNat]
  exact ⟨h.1, Nat.le_of_lt_succ h.2⟩

theorem tail_of_inRange {b : UInt8} (h : InRange (0x80, 0xbf) b) : Tail b := by
  rw [inRange_toNat] at h
  exact ⟨h.1, Nat.lt_succ_of_le h.2⟩

theorem utf8Char_iff_reads {code : List UInt8} :
    Utf8Char code ↔ ∃ c, Utf8Reads code c ∧ ¬Utf8Malformed code := by
  constructor
  · rintro ⟨c, -, hencode⟩
    exact ⟨c, encodeUtf8_eq_some.mp hencode⟩
  · rintro ⟨c, h⟩
    have hencode := encodeUtf8_eq_some.mpr h
    exact ⟨c, (Utf.exists_encode_iff false .utf8 c).mp ⟨code, hencode⟩, hencode⟩

section Ranges

variable {a b d e : UInt8}

theorem char_two (ha : 0xc2 ≤ a.toNat ∧ a.toNat ≤ 0xdf) (hb : InRange (0x80, 0xbf) b) :
    Utf8Char [a, b] := by
  refine utf8Char_iff_reads.mpr
    ⟨_, .two (by omega) (by omega) (tail_of_inRange hb) rfl, fun hbad => ?_⟩
  cases hbad
  omega

theorem char_three (ha : 0xe0 ≤ a.toNat ∧ a.toNat ≤ 0xef) (hb : Tail b)
    (hlong : a.toNat = 0xe0 → 0xa0 ≤ b.toNat) (hsurrogate : a.toNat = 0xed → b.toNat < 0xa0)
    (hd : InRange (0x80, 0xbf) d) : Utf8Char [a, b, d] := by
  refine utf8Char_iff_reads.mpr
    ⟨_, .three (by omega) (by omega) hb (tail_of_inRange hd) rfl, fun hbad => ?_⟩
  cases hbad <;> omega

theorem char_four (ha : 0xf0 ≤ a.toNat ∧ a.toNat ≤ 0xf4) (hb : Tail b)
    (hlong : a.toNat = 0xf0 → 0x90 ≤ b.toNat) (hlast : a.toNat = 0xf4 → b.toNat < 0x90)
    (hd : InRange (0x80, 0xbf) d) (he : InRange (0x80, 0xbf) e) : Utf8Char [a, b, d, e] := by
  refine utf8Char_iff_reads.mpr ⟨_, .four (by omega) (by omega) hb (tail_of_inRange hd)
    (tail_of_inRange he) rfl, fun hbad => ?_⟩
  cases hbad <;> omega

end Ranges

/-- The rest of a code point lies in the ranges of its first byte. -/
theorem Utf8Char.ranges {code : List UInt8} (h : Utf8Char code) :
    ∃ a ranges tail, code = a :: tail ∧ tailRanges a = some ranges ∧
      List.Forall₂ InRange ranges tail := by
  obtain ⟨c, hreads, hwell⟩ := utf8Char_iff_reads.mp h
  cases hreads with
  | @one a _ ha hc =>
    refine ⟨a, [], [], rfl, ?_, .nil⟩
    rw [tailRanges_toNat, if_pos (by omega)]
  | @two a b _ ha ha' hb hc =>
    have hlong : ¬_ := fun h => hwell (.overlongTwo ha h hb)
    refine ⟨a, _, [b], rfl, ?_, .cons (inRange_of_tail hb) .nil⟩
    rw [tailRanges_toNat, if_neg (by omega), if_pos (by omega)]
  | @three a b d _ ha ha' hb hd hc =>
    have hlong : ¬(_ ∧ _) := fun h => hwell (.overlongThree h.1 hb h.2 hd)
    have hsurrogate : ¬(_ ∧ _) := fun h => hwell (.surrogate h.1 hb h.2 hd)
    obtain ⟨range, hrange, hin⟩ : ∃ range, tailRanges a = some [range, (0x80, 0xbf)] ∧
        InRange range b := by
      obtain ⟨hb, hb'⟩ := hb
      simp only [tailRanges_toNat, inRange_toNat]
      rw [if_neg (by omega), if_neg (by omega)]
      split
      · exact ⟨_, rfl, show 0xa0 ≤ _ by omega, show _ ≤ 0xbf by omega⟩
      split
      · exact ⟨_, rfl, hb, Nat.le_of_lt_succ hb'⟩
      · rw [if_pos (by omega)]
        exact ⟨_, rfl, hb, show _ ≤ 0x9f by omega⟩
    exact ⟨a, _, [b, d], rfl, hrange, .cons hin (.cons (inRange_of_tail hd) .nil)⟩
  | @four a b d e _ ha ha' hb hd he hc =>
    have hlong : ¬(_ ∧ _) := fun h => hwell (.overlongFour h.1 hb h.2 hd he)
    have hlast : ¬(_ ∧ _) := fun h => hwell (.pastLastPlane h.1 hb h.2 hd he)
    have hplane : ¬_ := fun h => hwell (.noPlane h ha' hb hd he)
    obtain ⟨range, hrange, hin⟩ : ∃ range,
        tailRanges a = some [range, (0x80, 0xbf), (0x80, 0xbf)] ∧ InRange range b := by
      obtain ⟨hb, hb'⟩ := hb
      simp only [tailRanges_toNat, inRange_toNat]
      rw [if_neg (by omega), if_neg (by omega), if_neg (by omega), if_neg (by omega),
        if_neg (by omega)]
      split
      · exact ⟨_, rfl, show 0x90 ≤ _ by omega, show _ ≤ 0xbf by omega⟩
      split
      · exact ⟨_, rfl, hb, Nat.le_of_lt_succ hb'⟩
      · rw [if_pos (by omega)]
        exact ⟨_, rfl, hb, show _ ≤ 0x8f by omega⟩
    exact ⟨a, _, [b, d, e], rfl, hrange,
      .cons hin (.cons (inRange_of_tail hd) (.cons (inRange_of_tail he) .nil))⟩

theorem utf8Char_of_ranges {a : UInt8} {ranges : List (UInt8 × UInt8)} {tail : List UInt8}
    (hranges : tailRanges a = some ranges) (htail : List.Forall₂ InRange ranges tail) :
    Utf8Char (a :: tail) := by
  rw [tailRanges_toNat] at hranges
  split_ifs at hranges with h₀ h₁ h₂ h₃ h₄ h₅ h₆ h₇
  · obtain rfl := Option.some.inj hranges
    cases htail
    exact utf8Char_iff_reads.mpr ⟨_, .one (by omega) rfl, fun h => nomatch h⟩
  · obtain rfl := Option.some.inj hranges
    obtain _ | ⟨hb, _ | _⟩ := htail
    exact char_two h₁ hb
  · obtain rfl := Option.some.inj hranges
    obtain _ | ⟨hb, _ | ⟨hd, _ | _⟩⟩ := htail
    obtain ⟨hlo, hhi⟩ : 0xa0 ≤ _ ∧ _ ≤ 0xbf := (inRange_toNat _ _).mp hb
    exact char_three (by omega) ⟨by omega, by omega⟩ (by omega) (by omega) hd
  · obtain rfl := Option.some.inj hranges
    obtain _ | ⟨hb, _ | ⟨hd, _ | _⟩⟩ := htail
    exact char_three (by omega) (tail_of_inRange hb) (by omega) (by omega) hd
  · obtain rfl := Option.some.inj hranges
    obtain _ | ⟨hb, _ | ⟨hd, _ | _⟩⟩ := htail
    obtain ⟨hlo, hhi⟩ : 0x80 ≤ _ ∧ _ ≤ 0x9f := (inRange_toNat _ _).mp hb
    exact char_three (by omega) ⟨by omega, by omega⟩ (by omega) (by omega) hd
  · obtain rfl := Option.some.inj hranges
    obtain _ | ⟨hb, _ | ⟨hd, _ | ⟨he, _ | _⟩⟩⟩ := htail
    obtain ⟨hlo, hhi⟩ : 0x90 ≤ _ ∧ _ ≤ 0xbf := (inRange_toNat _ _).mp hb
    exact char_four (by omega) ⟨by omega, by omega⟩ (by omega) (by omega) hd he
  · obtain rfl := Option.some.inj hranges
    obtain _ | ⟨hb, _ | ⟨hd, _ | ⟨he, _ | _⟩⟩⟩ := htail
    exact char_four (by omega) (tail_of_inRange hb) (by omega) (by omega) hd he
  · obtain rfl := Option.some.inj hranges
    obtain _ | ⟨hb, _ | ⟨hd, _ | ⟨he, _ | _⟩⟩⟩ := htail
    obtain ⟨hlo, hhi⟩ : 0x80 ≤ _ ∧ _ ≤ 0x8f := (inRange_toNat _ _).mp hb
    exact char_four (by omega) ⟨by omega, by omega⟩ (by omega) (by omega) hd he

/-! ## One code point -/

theorem forall_range_cons {range : UInt8 × UInt8} {ranges : List (UInt8 × UInt8)}
    (h : InRange range range.1) (hs : ∀ range ∈ ranges, InRange range range.1) :
    ∀ x ∈ range :: ranges, InRange x x.1 := List.forall_mem_cons.mpr ⟨h, hs⟩

theorem tailRanges_nonempty {a : UInt8} {ranges : List (UInt8 × UInt8)}
    (h : tailRanges a = some ranges) : ∀ range ∈ ranges, InRange range range.1 := by
  rw [tailRanges] at h
  have hfull : InRange (0x80, 0xbf) 0x80 := ⟨by decide, by decide⟩
  have hnone : ∀ range ∈ ([] : List (UInt8 × UInt8)), InRange range range.1 :=
    fun range hrange => absurd hrange List.not_mem_nil
  have hone := forall_range_cons hfull hnone
  have htwo := forall_range_cons hfull hone
  split_ifs at h <;> obtain rfl := Option.some.inj h
  · exact hnone
  · exact hone
  · exact forall_range_cons ⟨by decide, by decide⟩ hone
  · exact htwo
  · exact forall_range_cons ⟨by decide, by decide⟩ hone
  · exact forall_range_cons ⟨by decide, by decide⟩ htwo
  · exact forall_range_cons hfull htwo
  · exact forall_range_cons ⟨by decide, by decide⟩ htwo

theorem Utf8Char.eq_of_prefix {code code' bytes : List UInt8} (h : Utf8Char code)
    (h' : Utf8Char code') (hstart : code <+: bytes) (hstart' : code' <+: bytes) : code = code' := by
  obtain ⟨a, ranges, tail, rfl, hranges, htail⟩ := h.ranges
  obtain ⟨a', ranges', tail', rfl, hranges', htail'⟩ := h'.ranges
  obtain ⟨rest, rfl⟩ := hstart
  obtain ⟨rfl, hrest⟩ := List.cons_prefix_cons.mp hstart'
  obtain rfl := Option.some.inj (hranges.symm.trans hranges')
  have hlen : tail.length = tail'.length := htail.length_eq.symm.trans htail'.length_eq
  rw [(List.prefix_of_prefix_length_le (List.prefix_append tail rest) hrest hlen.le).eq_of_length
    hlen]

theorem inRange_of_append {passed left : List (UInt8 × UInt8)} {range : UInt8 × UInt8}
    {good tail : List UInt8} {b : UInt8} (hlen : passed.length = good.length)
    (htail : List.Forall₂ InRange (passed ++ range :: left) tail)
    (hstart : good ++ [b] <+: tail) : InRange range b := by
  obtain ⟨rest, rfl⟩ := hstart
  have hdrop := List.forall₂_drop passed.length htail
  rw [List.drop_left, hlen, List.append_assoc, List.drop_left] at hdrop
  obtain _ | ⟨hb, -⟩ := hdrop
  exact hb

theorem exists_char {a : UInt8} {passed left : List (UInt8 × UInt8)} {good : List UInt8}
    (hranges : tailRanges a = some (passed ++ left)) (hgood : List.Forall₂ InRange passed good) :
    ∃ code, Utf8Char code ∧ a :: good <+: code := by
  have hleft : List.Forall₂ InRange left (left.map Prod.fst) := by
    rw [List.forall₂_map_right_iff, List.forall₂_same]
    exact fun range hrange =>
      tailRanges_nonempty hranges range (List.mem_append_right passed hrange)
  exact ⟨_, utf8Char_of_ranges hranges (List.rel_append hgood hleft),
    List.prefix_append (a :: good) _⟩

variable {bytes : List UInt8}

/-- What the scan of some bytes finds at their start. -/
theorem utf8Prefix_spec (hne : bytes ≠ []) :
    match utf8Prefix bytes with
    | .ok n => ∃ code, Utf8Char code ∧ code <+: bytes ∧ code.length = n
    | .error offset => StopsAt bytes offset := by
  cases bytes with
  | nil => exact absurd rfl hne
  | cons a rest =>
    rw [utf8Prefix_cons]
    cases hranges : tailRanges a with
    | none =>
      have hnone : ∀ code, Utf8Char code → ¬[a] <+: code := by
        rintro code hcode hstart
        obtain ⟨a', ranges, tail, rfl, hranges', -⟩ := hcode.ranges
        obtain ⟨rfl, -⟩ := List.cons_prefix_cons.mp hstart
        exact nomatch hranges.symm.trans hranges'
      refine ⟨hne, fun code hcode hstart => ?_, Nat.zero_le _, ?_, .inr ?_⟩
      · obtain ⟨a', ranges, tail, rfl, -, -⟩ := hcode.ranges
        obtain ⟨rfl, -⟩ := List.cons_prefix_cons.mp hstart
        exact hnone _ hcode (List.cons_prefix_cons.mpr ⟨rfl, List.nil_prefix⟩)
      · exact ⟨[0], utf8Char_of_ranges (a := 0) rfl .nil, List.nil_prefix⟩
      · rintro ⟨code, hcode, hstart⟩
        exact hnone code hcode hstart
    | some ranges =>
      have hscan := scanRanges_spec (a :: rest).length 1 ranges rest
      dsimp only
      cases hrun : scanRanges (a :: rest).length 1 ranges rest with
      | ok u =>
        rw [hrun] at hscan
        obtain ⟨tail, htail, hstart⟩ := hscan
        exact ⟨a :: tail, utf8Char_of_ranges hranges htail,
          List.cons_prefix_cons.mpr ⟨rfl, hstart⟩, congrArg (· + 1) htail.length_eq.symm⟩
      | error e =>
        rw [hrun] at hscan
        obtain ⟨passed, range, left, good, more, rfl, rfl, hgood, hstop⟩ := hscan
        show StopsAt _ e
        obtain ⟨whole, hwhole, hfollows⟩ := exists_char hranges hgood
        rcases hstop with ⟨rfl, rfl⟩ | ⟨b, more, rfl, hout, rfl⟩
        · rw [List.append_nil] at hne ⊢
          refine ⟨hne, fun code hcode hstart => ?_, le_rfl, ⟨whole, hwhole, ?_⟩, .inl rfl⟩
          · obtain ⟨a', ranges, tail, rfl, hranges', htail⟩ := hcode.ranges
            obtain ⟨rfl, htail'⟩ := List.cons_prefix_cons.mp hstart
            obtain rfl := Option.some.inj (hranges.symm.trans hranges')
            have hlen := htail.length_eq
            have hle := htail'.length_le
            rw [List.length_append, List.length_cons, hgood.length_eq] at hlen
            omega
          · rwa [List.take_length]
        · have hlong : ∀ code, Utf8Char code → ¬a :: (good ++ [b]) <+: code := by
            rintro code hcode hstart
            obtain ⟨a', ranges, tail, rfl, hranges', htail⟩ := hcode.ranges
            obtain ⟨rfl, htail'⟩ := List.cons_prefix_cons.mp hstart
            obtain rfl := Option.some.inj (hranges.symm.trans hranges')
            exact hout (inRange_of_append hgood.length_eq htail htail')
          have htake : (a :: (good ++ b :: more)).take (1 + good.length + 1) =
              a :: (good ++ [b]) := by
            rw [show 1 + good.length + 1 = good.length + 1 + 1 by omega, List.take_succ_cons,
              List.take_length_add_append, List.take_succ_cons, List.take_zero]
          have htake' : (a :: (good ++ b :: more)).take (1 + good.length) = a :: good := by
            rw [Nat.add_comm, List.take_succ_cons, List.take_left]
          refine ⟨hne, fun code hcode hstart => ?_, ?_, ⟨whole, hwhole, ?_⟩, .inr ?_⟩
          · -- a code point at the start is longer than what the scan passed over
            refine hlong code hcode ?_
            obtain ⟨a', ranges, tail, rfl, hranges', htail⟩ := hcode.ranges
            obtain ⟨rfl, -⟩ := List.cons_prefix_cons.mp hstart
            obtain rfl := Option.some.inj (hranges.symm.trans hranges')
            have hlen := htail.length_eq
            rw [List.length_append, List.length_cons, hgood.length_eq] at hlen
            rw [← htake]
            refine List.prefix_of_prefix_length_le (List.take_prefix _ _) hstart ?_
            rw [htake, List.length_cons, List.length_cons, List.length_append]
            simp only [List.length_singleton]
            omega
          · rw [List.length_cons, List.length_append, List.length_cons]
            omega
          · rwa [htake']
          · rintro ⟨code, hcode, hstart⟩
            rw [htake] at hstart
            exact hlong code hcode hstart

theorem Follows.mono {j k : Nat} (h : Follows bytes k) (hjk : j ≤ k) : Follows bytes j := by
  obtain ⟨code, hcode, hstart⟩ := h
  exact ⟨code, hcode, (List.take_prefix_take_left hjk).trans hstart⟩

theorem StopsAt.le {j k : Nat} (h : StopsAt bytes j) (h' : StopsAt bytes k) : k ≤ j := by
  by_contra hlt
  rcases h.longest with hend | hlongest
  · have := h'.offset_le
    omega
  · exact hlongest (h'.follows.mono (by omega))

theorem StopsAt.eq {j k : Nat} (h : StopsAt bytes j)
    (h' : StopsAt bytes k) : j = k := Nat.le_antisymm (h'.le h) (h.le h')

theorem stopsAt_length_iff : StopsAt bytes bytes.length ↔
      bytes ≠ [] ∧ ∃ code, Utf8Char code ∧ bytes <+: code ∧ bytes ≠ code := by
  constructor
  · intro h
    obtain ⟨code, hcode, hstart⟩ := h.follows
    rw [List.take_length] at hstart
    refine ⟨h.ne_nil, code, hcode, hstart, fun heq => ?_⟩
    exact h.no_start code hcode (heq ▸ List.prefix_rfl)
  · rintro ⟨hne, code, hcode, hstart, hproper⟩
    refine ⟨hne, fun code' hcode' hstart' => hproper ?_, le_rfl, ⟨code, hcode, ?_⟩, .inl rfl⟩
    · have heq := hcode'.eq_of_prefix hcode (hstart'.trans hstart) List.prefix_rfl
      subst heq
      exact hstart.eq_of_length_le hstart'.length_le
    · rwa [List.take_length]

/-! ## Whole binaries -/

theorem Utf8Char.ne_nil {code : List UInt8} (h : Utf8Char code) : code ≠ [] := by
  obtain ⟨a, ranges, tail, rfl, -, -⟩ := h.ranges
  exact List.cons_ne_nil a tail

theorem utf8Text_append_iff {code rest : List UInt8} (hcode : Utf8Char code) :
    Utf8Text (code ++ rest) ↔ Utf8Text rest := by
  constructor
  · rintro ⟨codes, hcodes, hbytes⟩
    cases codes with
    | nil => exact absurd (List.append_eq_nil_iff.mp hbytes).1 hcode.ne_nil
    | cons code' codes =>
      obtain ⟨hcode', hrest⟩ := List.forall_mem_cons.mp hcodes
      rw [List.flatten_cons] at hbytes
      have hstart : code' <+: code ++ rest := ⟨codes.flatten, hbytes.symm⟩
      obtain rfl := hcode.eq_of_prefix hcode' (List.prefix_append code rest) hstart
      exact ⟨codes, hrest, List.append_cancel_left hbytes⟩
  · rintro ⟨codes, hcodes, rfl⟩
    exact ⟨code :: codes, List.forall_mem_cons.mpr ⟨hcode, hcodes⟩, List.flatten_cons.symm⟩

theorem validUtf8From_iff (bytes : List UInt8) (offset : Nat) :
    validUtf8From bytes offset = true ↔ Utf8Text (bytes.drop offset) := by
  induction offset using validUtf8From.induct bytes with
  | case1 offset hlt width hwidth ih =>
    have hspec := utf8Prefix_spec (List.drop_eq_nil_iff.not.mpr (Nat.not_le.mpr hlt))
    rw [hwidth] at hspec
    obtain ⟨code, hcode, ⟨rest, hrest⟩, rfl⟩ := hspec
    rw [validUtf8From, dif_pos hlt]
    split
    · next width' hwidth' =>
      obtain rfl := Except.ok.inj (hwidth.symm.trans hwidth')
      rw [ih, ← List.drop_drop, ← hrest, List.drop_left, utf8Text_append_iff hcode]
    · next hfail => exact nomatch hwidth.symm.trans hfail
  | case2 offset hlt stop hstop =>
    have hspec := utf8Prefix_spec (List.drop_eq_nil_iff.not.mpr (Nat.not_le.mpr hlt))
    rw [hstop] at hspec
    rw [validUtf8From, dif_pos hlt]
    split
    · next hok => exact nomatch hstop.symm.trans hok
    · refine iff_of_false Bool.false_ne_true ?_
      rintro ⟨codes, hcodes, hbytes⟩
      cases codes with
      | nil => exact hspec.ne_nil hbytes
      | cons code codes =>
        exact hspec.no_start code (hcodes code (List.mem_cons_self ..)) ⟨codes.flatten, hbytes.symm⟩
  | case3 offset hge =>
    rw [validUtf8From, dif_neg hge, List.drop_of_length_le (Nat.not_lt.mp hge)]
    exact iff_of_true rfl ⟨[], fun code hcode => absurd hcode List.not_mem_nil, rfl⟩

/-- A binary of whole bytes. -/
def ofBytes (bytes : List UInt8) : BitPayload where
  bitLen := 8 * bytes.length
  bytes := bytes
  length_bytes := by omega

theorem bytes_ofBytes (bytes : List UInt8) :
    (ofBytes bytes).bytes.take ((ofBytes bytes).bitLen / 8) = bytes := by
  refine List.take_of_length_le ?_
  show bytes.length ≤ 8 * bytes.length / 8
  omega

theorem ofBytes_aligned (bytes : List UInt8) : ¬(ofBytes bytes).bitLen % 8 ≠ 0 := by
  show ¬(8 * bytes.length) % 8 ≠ 0
  omega

theorem fzBitstringUtf8Prefix_ok {width : Nat} (h : utf8Prefix bytes = .ok width) :
    fzBitstringUtf8Prefix (some (ofBytes bytes)) = width := by
  rw [fzBitstringUtf8Prefix, if_neg (ofBytes_aligned bytes), bytes_ofBytes, h]

theorem fzBitstringUtf8Prefix_error {offset : Nat} (h : utf8Prefix bytes = .error offset) :
    fzBitstringUtf8Prefix (some (ofBytes bytes)) = -(offset : Int) - 1 := by
  rw [fzBitstringUtf8Prefix, if_neg (ofBytes_aligned bytes), bytes_ofBytes, h]

theorem fzBitstringValidUtf8_iff (bytes : List UInt8) :
    fzBitstringValidUtf8 (some (ofBytes bytes)) = 1 ↔ Utf8Text bytes := by
  rw [fzBitstringValidUtf8, if_neg (ofBytes_aligned bytes), bytes_ofBytes]
  have hvalid := validUtf8From_iff bytes 0
  rw [List.drop_zero] at hvalid
  rw [← hvalid]
  split
  · next htrue => exact iff_of_true rfl htrue
  · next hfalse => exact iff_of_false (by decide) hfalse

theorem fzBitstringUtf8Prefix_spec (bytes : List UInt8) :
    (bytes = [] ∧ fzBitstringUtf8Prefix (some (ofBytes bytes)) = 0) ∨
    (∃ code, Utf8Char code ∧ code <+: bytes ∧
      fzBitstringUtf8Prefix (some (ofBytes bytes)) = code.length) ∨
    ∃ offset : Nat, StopsAt bytes offset ∧
      fzBitstringUtf8Prefix (some (ofBytes bytes)) = -(offset : Int) - 1 := by
  by_cases hne : bytes = []
  · subst hne
    exact .inl ⟨rfl, rfl⟩
  have hspec := utf8Prefix_spec hne
  cases hscan : utf8Prefix bytes with
  | ok width =>
    rw [hscan] at hspec
    obtain ⟨code, hcode, hstart, rfl⟩ := hspec
    exact .inr (.inl ⟨code, hcode, hstart, fzBitstringUtf8Prefix_ok hscan⟩)
  | error offset =>
    rw [hscan] at hspec
    exact .inr (.inr ⟨offset, hspec, fzBitstringUtf8Prefix_error hscan⟩)

/-- The validator accepts text and nothing else.  The prefix scan gives the length of the code
point that the bytes start with, or how far they agree with one: up to their end when more bytes
could complete them, and otherwise up to a byte that no code point has there. -/
theorem utf8_scan_exact (bytes : List UInt8) :
    (fzBitstringValidUtf8 (some (ofBytes bytes)) = 1 ↔ Utf8Text bytes) ∧
    (∀ n : Nat, fzBitstringUtf8Prefix (some (ofBytes bytes)) = (n + 1 : Nat) ↔
      ∃ code, Utf8Char code ∧ code.length = n + 1 ∧ code <+: bytes) ∧
    (fzBitstringUtf8Prefix (some (ofBytes bytes)) = 0 ↔ bytes = []) ∧
    (∀ offset : Nat, fzBitstringUtf8Prefix (some (ofBytes bytes)) = -(offset : Int) - 1 ↔
      StopsAt bytes offset) ∧
    (fzBitstringUtf8Prefix (some (ofBytes bytes)) = -(bytes.length : Int) - 1 ↔
      bytes ≠ [] ∧ ∃ code, Utf8Char code ∧ bytes <+: code ∧ bytes ≠ code) := by
  have hstops : ∀ offset : Nat, fzBitstringUtf8Prefix (some (ofBytes bytes)) =
      -(offset : Int) - 1 ↔ StopsAt bytes offset := by
    intro offset
    rcases fzBitstringUtf8Prefix_spec bytes with
      ⟨hnil, hres⟩ | ⟨code, hcode, hstart, hres⟩ | ⟨offset', hstop, hres⟩ <;> rw [hres]
    · exact iff_of_false (by omega) fun hstop => hstop.ne_nil hnil
    · exact iff_of_false (by omega) fun hstop => hstop.no_start code hcode hstart
    · constructor
      · intro heq
        obtain rfl : offset' = offset := by omega
        exact hstop
      · intro hstop'
        rw [hstop.eq hstop']
  refine ⟨fzBitstringValidUtf8_iff bytes, fun n => ?_, ?_, hstops, ?_⟩
  · rcases fzBitstringUtf8Prefix_spec bytes with
      ⟨rfl, hres⟩ | ⟨code, hcode, hstart, hres⟩ | ⟨offset, hstop, hres⟩ <;> rw [hres]
    · refine iff_of_false (by omega) ?_
      rintro ⟨code, hcode, -, hstart⟩
      exact hcode.ne_nil (List.prefix_nil.mp hstart)
    · constructor
      · intro hlen
        exact ⟨code, hcode, by omega, hstart⟩
      · rintro ⟨code', hcode', hlen, hstart'⟩
        rw [hcode.eq_of_prefix hcode' hstart hstart', hlen]
    · refine iff_of_false (by omega) ?_
      rintro ⟨code, hcode, -, hstart⟩
      exact hstop.no_start code hcode hstart
  · rcases fzBitstringUtf8Prefix_spec bytes with
      ⟨hnil, hres⟩ | ⟨code, hcode, hstart, hres⟩ | ⟨offset, hstop, hres⟩ <;> rw [hres]
    · exact iff_of_true rfl hnil
    · have hpos := List.length_pos_iff.mpr hcode.ne_nil
      refine iff_of_false (by omega) ?_
      rintro rfl
      exact hcode.ne_nil (List.prefix_nil.mp hstart)
    · exact iff_of_false (by omega) hstop.ne_nil
  · rw [hstops, stopsAt_length_iff]

/-- Two letters are text of two bytes, and the scan reports the first. -/
theorem prefix_of_two_letters :
    Utf8Text [0x61, 0x62] ∧ fzBitstringUtf8Prefix (some (ofBytes [0x61, 0x62])) ≠ 2 := by
  refine ⟨⟨[[0x61], [0x62]], ?_, rfl⟩, by decide⟩
  intro code hcode
  rcases List.mem_pair.mp hcode with rfl | rfl
  · exact ⟨0x61, by decide, rfl⟩
  · exact ⟨0x62, by decide, rfl⟩

end Fz.Bitstr
