import Fz.Bitstr.UtfScan
import Fz.Lib.Text
import Mathlib.Data.List.DropRight
import Mathlib.Data.List.TakeWhile
import Mathlib.Data.Nat.Find

/-!
# Trimming

`trim_leading` goes through the code points from the front, and what it removes is what it should,
whatever the bytes are.  `trim_trailing` turns the code points round, trims the front and turns them
back.  Where the last code point is cut off, or where a byte that announces a longer code point
stands before whitespace, the code points of the reversed text are not those of the text:
`trimTrailing_iff` says when they agree as far as it matters.
-/

namespace Fz.Lib

namespace FzString

open Fz.Bitstr

/-! ## The functions -/

def whitespaces : List Binary :=
  [[32], [9], [10], [13], [11], [12], [194, 133], [194, 160], [225, 154, 128], [226, 128, 128],
    [226, 128, 129], [226, 128, 130], [226, 128, 131], [226, 128, 132], [226, 128, 133],
    [226, 128, 134], [226, 128, 135], [226, 128, 136], [226, 128, 137], [226, 128, 138],
    [226, 128, 168], [226, 128, 169], [226, 128, 175], [226, 129, 159], [227, 128, 128]]

def whitespace (cp : Binary) : Bool := whitespaces.contains cp

def trimLeading (s : Binary) : Binary :=
  match _h : nextCodepoint s with
  | none => s
  | some (cp, rest) => if whitespace cp then trimLeading rest else s
termination_by s.length
decreasing_by exact length_of_nextCodepoint _h

def reverseOnto (s acc : Binary) : Binary :=
  match _h : nextCodepoint s with
  | none => acc
  | some (cp, rest) => reverseOnto rest (cp ++ acc)
termination_by s.length
decreasing_by exact length_of_nextCodepoint _h

def reverse (s : Binary) : Binary := reverseOnto s []

def trimTrailing (s : Binary) : Binary := reverse (trimLeading (reverse s))

def trim (s : Binary) : Binary := trimTrailing (trimLeading s)

/-! ## Whitespace -/

/-- The code points with the Unicode property. -/
def whitespacePoints : List Nat :=
  [0x20, 0x09, 0x0a, 0x0d, 0x0b, 0x0c, 0x85, 0xa0, 0x1680] ++ List.range' 0x2000 11 ++
    [0x2028, 0x2029, 0x202f, 0x205f, 0x3000]

/-- Encoded whitespace code points, one behind the other. -/
def Whitespace (w : Binary) : Prop :=
  ∃ cps : List Binary, (∀ cp ∈ cps, ∃ c ∈ whitespacePoints, encodeUtf8 c = some cp) ∧
    w = cps.flatten

theorem whitespaces_encode : whitespacePoints.map encodeUtf8 = whitespaces.map some := by
  decide +kernel

theorem whitespace_iff {cp : Binary} :
    whitespace cp = true ↔ ∃ c ∈ whitespacePoints, encodeUtf8 c = some cp := by
  rw [whitespace, List.contains_iff_mem, ← List.mem_map, whitespaces_encode, List.mem_map]
  simp

theorem whitespace_concat_iff {w : Binary} :
    Whitespace w ↔ ∃ cps : List Binary, (∀ cp ∈ cps, whitespace cp = true) ∧ w = cps.flatten := by
  simp only [Whitespace, whitespace_iff]

variable {cps : List Binary}

theorem Whitespace.of_flatten (h : ∀ cp ∈ cps, whitespace cp = true) : Whitespace cps.flatten :=
  whitespace_concat_iff.mpr ⟨cps, h, rfl⟩

theorem Whitespace.nil : Whitespace [] := ⟨[], by simp, rfl⟩

/-- The longest whitespace a binary starts with. -/
structure LongestLead (w s : Binary) : Prop where
  whitespace : Whitespace w
  starts : w <+: s
  longest : ∀ w', Whitespace w' → w' <+: s → w'.length ≤ w.length

/-- The longest whitespace a binary ends with. -/
structure LongestTrail (w s : Binary) : Prop where
  whitespace : Whitespace w
  ends : w <:+ s
  longest : ∀ w', Whitespace w' → w' <:+ s → w'.length ≤ w.length

theorem exists_longestTrail (s : Binary) : ∃ w, LongestTrail w s := by
  classical
  let P := fun n => ∃ w, Whitespace w ∧ w <:+ s ∧ w.length = n
  have hspec : P (Nat.findGreatest P s.length) :=
    Nat.findGreatest_spec (Nat.zero_le _) ⟨[], .nil, List.nil_suffix, rfl⟩
  obtain ⟨w, hw, hends, hlen⟩ := hspec
  refine ⟨w, hw, hends, fun w' hw' hends' => ?_⟩
  rw [hlen]
  exact Nat.le_findGreatest hends'.length_le ⟨w', hw', hends', rfl⟩

theorem LongestTrail.length_eq {w w' s : Binary} (h : LongestTrail w s) (h' : LongestTrail w' s) :
    w.length = w'.length :=
  Nat.le_antisymm (h'.longest w h.whitespace h.ends) (h.longest w' h'.whitespace h'.ends)

/-! ## Complete code points -/

/-- As many bytes as the first announces. -/
def Complete (cp : Binary) : Prop := cp.length = codepointSize (firstByte cp)

theorem Complete.ne_nil {cp : Binary} (h : Complete cp) : cp ≠ [] := by
  rintro rfl
  exact Nat.zero_ne_one h

theorem complete_of_whitespace {cp : Binary} (h : whitespace cp = true) : Complete cp := by
  have hall : ∀ cp ∈ whitespaces, cp.length = codepointSize (firstByte cp) := by decide
  exact hall cp (List.contains_iff_mem.mp h)

theorem firstByte_append {cp : Binary} (hne : cp ≠ []) (rest : Binary) :
    firstByte (cp ++ rest) = firstByte cp := by
  cases cp with
  | nil => exact absurd rfl hne
  | cons c cp => rfl

theorem codepoints_append {cp : Binary} (h : Complete cp) (rest : Binary) :
    codepoints (cp ++ rest) = cp :: codepoints rest := by
  cases cp with
  | nil => exact absurd rfl h.ne_nil
  | cons c cp =>
    have hlen : codepointSize c = (c :: cp).length := h.symm
    rw [List.cons_append, codepoints_cons, hlen, ← List.cons_append, List.take_left, List.drop_left]

theorem codepoints_flatten_append (h : ∀ cp ∈ cps, Complete cp)
    (rest : Binary) : codepoints (cps.flatten ++ rest) = cps ++ codepoints rest := by
  induction cps with
  | nil => rfl
  | cons cp cps ih =>
    obtain ⟨hcp, hcps⟩ := List.forall_mem_cons.mp h
    rw [List.flatten_cons, List.append_assoc, codepoints_append hcp, ih hcps, List.cons_append]

theorem codepoints_flatten (h : ∀ cp ∈ cps, Complete cp) : codepoints cps.flatten = cps := by
  have := codepoints_flatten_append h []
  rwa [List.append_nil, codepoints_nil, List.append_nil] at this

theorem Whitespace.codepoints {w : Binary} (h : Whitespace w) :
    ∀ cp ∈ codepoints w, whitespace cp = true := by
  obtain ⟨cps, hcps, rfl⟩ := whitespace_concat_iff.mp h
  rw [codepoints_flatten fun cp hcp => complete_of_whitespace (hcps cp hcp)]
  exact hcps

/-- All code points are complete but for the last, which the end of the binary may cut off. -/
theorem codepoints_complete (s : Binary) : (∀ cp ∈ codepoints s, Complete cp) ∨
    ∃ cps last, codepoints s = cps ++ [last] ∧ (∀ cp ∈ cps, Complete cp) ∧ last ≠ [] ∧
      last.length < codepointSize (firstByte last) := by
  induction s using codepoints_induction with
  | nil => exact .inl (by simp [codepoints_nil])
  | cons c s ih =>
    rw [codepoints_cons]
    by_cases hlen : (c :: s).length < codepointSize c
    · refine .inr ⟨[], c :: s, ?_, by simp, List.cons_ne_nil c s, hlen⟩
      rw [List.take_of_length_le (by omega), List.drop_eq_nil_of_le (by omega), codepoints_nil,
        List.nil_append]
    · have hfirst : Complete ((c :: s).take (codepointSize c)) := by
        obtain ⟨n, hn⟩ := Nat.exists_eq_succ_of_ne_zero (codepointSize_pos c).ne'
        rw [Complete, List.length_take, Nat.min_eq_left (by omega), hn, List.take_succ_cons,
          firstByte, hn]
      rcases ih with hall | ⟨cps, last, hcps, hall, hlast⟩
      · exact .inl (List.forall_mem_cons.mpr ⟨hfirst, hall⟩)
      · exact .inr ⟨_ :: cps, last, by rw [hcps, List.cons_append],
          List.forall_mem_cons.mpr ⟨hfirst, hall⟩, hlast⟩

/-- Code points stay the same where those before them are taken off. -/
theorem codepoints_of_suffix (s : Binary) : ∀ {front back : List Binary},
    codepoints s = front ++ back → codepoints back.flatten = back := by
  induction s using codepoints_induction with
  | nil =>
    intro front back h
    rw [codepoints_nil] at h
    obtain ⟨-, rfl⟩ := List.append_eq_nil_iff.mp h.symm
    exact codepoints_nil
  | cons c s ih =>
    intro front back h
    cases front with
    | nil =>
      rw [List.nil_append] at h
      rw [← h, flatten_codepoints]
    | cons cp front =>
      rw [codepoints_cons, List.cons_append] at h
      exact ih (List.cons.inj h).2

/-! ## Trimming the front -/

theorem trimLeading_nil : trimLeading [] = [] := by
  rw [trimLeading]
  rfl

theorem trimLeading_cons (c : UInt8) (s : Binary) : trimLeading (c :: s) =
      if whitespace ((c :: s).take (codepointSize c)) then
        trimLeading ((c :: s).drop (codepointSize c)) else c :: s := by
  rw [trimLeading]
  split
  · rename_i h
    rw [nextCodepoint_cons] at h
    exact nomatch h
  · rename_i cp rest h
    rw [nextCodepoint_cons] at h
    cases h
    rfl

theorem codepoints_trimLeading (s : Binary) :
    codepoints (trimLeading s) = (codepoints s).dropWhile whitespace := by
  induction s using codepoints_induction with
  | nil => rw [trimLeading_nil, codepoints_nil, List.dropWhile_nil]
  | cons c s ih =>
    rw [trimLeading_cons, codepoints_cons, List.dropWhile_cons]
    split
    · exact ih
    · exact codepoints_cons c s

theorem takeWhile_append_trimLeading (s : Binary) :
    ((codepoints s).takeWhile whitespace).flatten ++ trimLeading s = s := by
  conv_lhs => rw [← flatten_codepoints (trimLeading s), codepoints_trimLeading,
    ← List.flatten_append, List.takeWhile_append_dropWhile]
  exact flatten_codepoints s

theorem longestLead_takeWhile (s : Binary) :
    LongestLead ((codepoints s).takeWhile whitespace).flatten s := by
  refine ⟨.of_flatten fun cp => List.mem_takeWhile_imp, ⟨_, takeWhile_append_trimLeading s⟩, ?_⟩
  rintro w' hw' ⟨rest, rfl⟩
  obtain ⟨cps, hcps, rfl⟩ := whitespace_concat_iff.mp hw'
  rw [codepoints_flatten_append fun cp hcp => complete_of_whitespace (hcps cp hcp),
    List.takeWhile_append_of_pos hcps, List.flatten_append, List.length_append]
  exact Nat.le_add_right _ _

/-! ## Turning round -/

theorem reverseOnto_eq (s : Binary) : ∀ acc,
    reverseOnto s acc = (codepoints s).reverse.flatten ++ acc := by
  induction s using codepoints_induction with
  | nil =>
    intro acc
    rw [codepoints_nil, reverseOnto]
    rfl
  | cons c s ih =>
    intro acc
    rw [codepoints_cons, reverseOnto]
    split
    · rename_i h
      rw [nextCodepoint_cons] at h
      exact nomatch h
    · rename_i cp rest h
      rw [nextCodepoint_cons] at h
      cases h
      rw [ih, List.reverse_cons, List.flatten_append, List.flatten_singleton, List.append_assoc]

theorem reverse_eq (s : Binary) : reverse s = (codepoints s).reverse.flatten := by
  rw [reverse, reverseOnto_eq, List.append_nil]

theorem length_flatten_reverse (cps : List Binary) :
    cps.reverse.flatten.length = cps.flatten.length := by
  induction cps with
  | nil => rfl
  | cons cp cps ih =>
    rw [List.reverse_cons, List.flatten_append, List.length_append, ih, List.flatten_singleton,
      List.flatten_cons, List.length_append, Nat.add_comm]

theorem length_reverse (s : Binary) : (reverse s).length = s.length := by
  rw [reverse_eq, length_flatten_reverse, flatten_codepoints]

/-! ## Trimming the end -/

def TrimmedLead (s out : Binary) : Prop := ∃ w, s = w ++ out ∧ LongestLead w s

def TrimmedTrail (s out : Binary) : Prop := ∃ w, s = out ++ w ∧ LongestTrail w s

/-- A binary that turning its code points round twice gives back, and whose longest trailing
whitespace begins where a code point does. -/
structure Reversible (s : Binary) : Prop where
  twice : reverse (reverse s) = s
  boundary : ∀ out w, s = out ++ w → LongestTrail w s →
    ∃ front, front <+: codepoints s ∧ front.flatten = out

/-- From a boundary on, whitespace is a list of code points. -/
theorem whitespace_behind {s w : Binary} {front : List Binary} (hfront : front <+: codepoints s)
    (hs : s = front.flatten ++ w) (hw : Whitespace w) :
    ∃ back, codepoints s = front ++ back ∧ back.flatten = w ∧
      ∀ cp ∈ back, whitespace cp = true := by
  obtain ⟨back, hback⟩ := hfront
  have hflat : back.flatten = w := by
    have := flatten_codepoints s
    rw [← hback, List.flatten_append] at this
    exact List.append_cancel_left (this.trans hs)
  refine ⟨back, hback.symm, hflat, ?_⟩
  rw [← codepoints_of_suffix s hback.symm, hflat]
  exact hw.codepoints

theorem codepoints_reverse {s : Binary} (hall : ∀ cp ∈ codepoints s, Complete cp) :
    codepoints (reverse s) = (codepoints s).reverse := by
  rw [reverse_eq, codepoints_flatten fun cp hcp => hall cp (List.mem_reverse.mp hcp)]

theorem trimTrailing_of_complete {s : Binary} (hall : ∀ cp ∈ codepoints s, Complete cp) :
    trimTrailing s = ((codepoints s).rdropWhile whitespace).flatten := by
  rw [trimTrailing, reverse_eq, codepoints_trimLeading, codepoints_reverse hall, List.rdropWhile]

/-- Where no code point is cut off, only a misaligned whitespace is missed. -/
theorem trimTrailing_iff_of_complete {s : Binary} (hall : ∀ cp ∈ codepoints s, Complete cp) :
    TrimmedTrail s (trimTrailing s) ↔ Reversible s := by
  have hsplit : trimTrailing s ++ ((codepoints s).rtakeWhile whitespace).flatten = s := by
    rw [trimTrailing_of_complete hall, ← List.flatten_append, List.rdropWhile_append_rtakeWhile,
      flatten_codepoints]
  constructor
  · rintro ⟨w, hs, hw⟩
    refine ⟨?_, fun out w' hs' hw' => ⟨(codepoints s).rdropWhile whitespace,
      List.rdropWhile_prefix _ _, ?_⟩⟩
    · rw [reverse_eq, codepoints_reverse hall, List.reverse_reverse, flatten_codepoints]
    · rw [← trimTrailing_of_complete hall]
      exact (List.append_inj' (hs.symm.trans hs') (hw.length_eq hw')).1
  · rintro ⟨-, hboundary⟩
    refine ⟨_, hsplit.symm, .of_flatten fun cp => List.mem_rtakeWhile_imp, ⟨_, hsplit⟩,
      fun w' hw' hends' => ?_⟩
    obtain ⟨w, hw⟩ := exists_longestTrail s
    obtain ⟨out, hout⟩ := hw.ends
    obtain ⟨front, hfront, rfl⟩ := hboundary out w hout.symm hw
    obtain ⟨back, hback, hflat, hspace⟩ := whitespace_behind hfront hout.symm hw.whitespace
    refine (hw.longest w' hw' hends').trans ?_
    have hsuffix : back <:+ (codepoints s).rtakeWhile whitespace := by
      rw [hback, List.rtakeWhile, List.reverse_append, List.takeWhile_append_of_pos
        fun cp hcp => hspace cp (List.mem_reverse.mp hcp), List.reverse_append,
        List.reverse_reverse]
      exact List.suffix_append _ _
    obtain ⟨before, hbefore⟩ := hsuffix
    rw [← hbefore, List.flatten_append, List.length_append, hflat]
    exact Nat.le_add_left _ _

/-- The start of a whitespace code point is not the end of another, nor does one end on it. -/
theorem whitespace_overlap {cp cp' last : Binary} (hcp : whitespace cp = true)
    (hcp' : whitespace cp' = true) (hstart : last <+: cp) (hne : last ≠ [])
    (hlt : last.length < cp.length) : ¬last <:+ cp' ∧ ¬cp' <:+ last := by
  have hall : ∀ cp ∈ whitespaces, ∀ cp' ∈ whitespaces, ∀ n < cp.length, 0 < n →
      ¬cp.take n <:+ cp' ∧ ¬cp' <:+ cp.take n := by
    decide +kernel
  rw [List.prefix_iff_eq_take.mp hstart]
  exact hall cp (List.contains_iff_mem.mp hcp) cp' (List.contains_iff_mem.mp hcp') last.length hlt
    (List.length_pos_iff.mpr hne)

theorem Whitespace.exists_last {w : Binary} (h : Whitespace w) (hne : w ≠ []) :
    ∃ cp, whitespace cp = true ∧ cp <:+ w := by
  obtain ⟨cps, hcps, rfl⟩ := whitespace_concat_iff.mp h
  rcases List.eq_nil_or_concat' cps with rfl | ⟨init, cp, rfl⟩
  · exact absurd rfl hne
  · rw [List.flatten_append, List.flatten_singleton]
    exact ⟨cp, hcps cp (List.mem_append_right init (.head _)), List.suffix_append _ _⟩

theorem trimLeading_of_takeWhile_nil {s : Binary}
    (h : (codepoints s).takeWhile whitespace = []) : trimLeading s = s := by
  have hlead := takeWhile_append_trimLeading s
  rwa [h, List.flatten_nil, List.nil_append] at hlead

/-- A cut off code point stands before the others in the reversed text and takes bytes of the next
ones.  If this makes whitespace of it, too much is removed. -/
theorem takeWhile_reverse_of_cut {s last w : Binary}
    (hcps : codepoints s = cps ++ [last]) (hne : last ≠ [])
    (hcut : last.length < codepointSize (firstByte last)) (hw : Whitespace w) (hw' : w <:+ s)
    (hlen : w.length = ((codepoints (reverse s)).takeWhile whitespace).flatten.length) :
    (codepoints (reverse s)).takeWhile whitespace = [] := by
  have hends : last <:+ s := by
    rw [← flatten_codepoints s, hcps, List.flatten_append, List.flatten_singleton]
    exact List.suffix_append _ _
  have hstarts : last <+: reverse s := by
    rw [reverse_eq, hcps, List.reverse_append, List.reverse_singleton, List.flatten_append,
      List.flatten_singleton]
    exact List.prefix_append _ _
  cases htake : (codepoints (reverse s)).takeWhile whitespace with
  | nil => rfl
  | cons cp rest =>
    have hcp : whitespace cp = true := List.mem_takeWhile_imp (htake ▸ List.mem_cons_self)
    have hcomplete := complete_of_whitespace hcp
    have hlead : cp <+: reverse s := by
      rw [← takeWhile_append_trimLeading (reverse s), htake, List.flatten_cons, List.append_assoc]
      exact List.prefix_append _ _
    have hlt : last.length < cp.length := by
      obtain ⟨after, hafter⟩ := hstarts
      obtain ⟨after', hafter'⟩ := hlead
      have hfirst : firstByte last = firstByte cp := by
        rw [← firstByte_append hne after, hafter, ← hafter', firstByte_append hcomplete.ne_nil]
      rwa [hfirst, ← hcomplete] at hcut
    have hstart := List.prefix_of_prefix_length_le hstarts hlead hlt.le
    have hwne : w ≠ [] := by
      rintro rfl
      rw [htake, List.flatten_cons, List.length_append, List.length_nil] at hlen
      omega
    obtain ⟨cp', hcp', hends'⟩ := hw.exists_last hwne
    obtain ⟨hnot, hnot'⟩ := whitespace_overlap hcp hcp' hstart hne hlt
    rcases List.suffix_or_suffix_of_suffix hends (hends'.trans hw') with h | h
    · exact absurd h hnot
    · exact absurd h hnot'

theorem trimTrailing_iff_of_cut {s last : Binary}
    (hcps : codepoints s = cps ++ [last]) (hne : last ≠ [])
    (hcut : last.length < codepointSize (firstByte last)) :
    TrimmedTrail s (trimTrailing s) ↔ Reversible s := by
  constructor
  · rintro ⟨w, hs, hw⟩
    have hlen : w.length = ((codepoints (reverse s)).takeWhile whitespace).flatten.length := by
      have hlead := congrArg List.length (takeWhile_append_trimLeading (reverse s))
      have hout := congrArg List.length hs
      rw [List.length_append, length_reverse] at hlead
      rw [trimTrailing, List.length_append, length_reverse] at hout
      omega
    have hnone := takeWhile_reverse_of_cut hcps hne hcut hw.whitespace hw.ends hlen
    rw [hnone, List.flatten_nil, List.length_nil, List.length_eq_zero_iff] at hlen
    subst hlen
    rw [trimTrailing, trimLeading_of_takeWhile_nil hnone, List.append_nil] at hs
    refine ⟨hs.symm, fun out w' hs' hw' => ⟨codepoints s, List.prefix_rfl, ?_⟩⟩
    have hnil := List.length_eq_zero_iff.mp (hw'.length_eq hw)
    rw [hnil, List.append_nil] at hs'
    rw [flatten_codepoints, hs']
  · rintro ⟨htwice, hboundary⟩
    obtain ⟨w, hw⟩ := exists_longestTrail s
    obtain ⟨out, hout⟩ := hw.ends
    obtain ⟨front, hfront, rfl⟩ := hboundary out w hout.symm hw
    obtain ⟨back, hback, hflat, hspace⟩ := whitespace_behind hfront hout.symm hw.whitespace
    -- The code point that is cut off is no whitespace, so there is none behind the boundary.
    rcases List.eq_nil_or_concat' back with rfl | ⟨init, cp, rfl⟩
    · rw [List.flatten_nil] at hflat
      subst hflat
      have hnone : (codepoints (reverse s)).takeWhile whitespace = [] := by
        cases htake : (codepoints (reverse s)).takeWhile whitespace with
        | nil => rfl
        | cons cp rest =>
          have hcp : whitespace cp = true := List.mem_takeWhile_imp (htake ▸ List.mem_cons_self)
          have hends : cp <:+ s := by
            obtain ⟨after, hafter⟩ := List.takeWhile_prefix (l := codepoints (reverse s)) whitespace
            rw [← htwice, reverse_eq (reverse s), ← hafter, htake, List.cons_append,
              List.reverse_cons, List.flatten_append, List.flatten_singleton]
            exact List.suffix_append _ _
          have hle := hw.longest cp (whitespace_concat_iff.mpr ⟨[cp], by simpa using hcp, by simp⟩)
            hends
          exact absurd (List.length_eq_zero_iff.mp (Nat.le_zero.mp hle))
            (complete_of_whitespace hcp).ne_nil
      refine ⟨[], ?_, hw⟩
      rw [trimTrailing, trimLeading_of_takeWhile_nil hnone, htwice, List.append_nil]
    · rw [hcps, ← List.append_assoc] at hback
      obtain ⟨-, hlast⟩ := List.append_inj' hback rfl
      obtain rfl := List.head_eq_of_cons_eq hlast
      have := complete_of_whitespace (hspace last (List.mem_append_right init (.head _)))
      exact absurd this hcut.ne

/-- Trimming the end is right exactly where turning the code points round does no harm. -/
theorem trimTrailing_iff (s : Binary) : TrimmedTrail s (trimTrailing s) ↔ Reversible s := by
  rcases codepoints_complete s with hall | ⟨cps, last, hcps, -, hne, hcut⟩
  · exact trimTrailing_iff_of_complete hall
  · exact trimTrailing_iff_of_cut hcps hne hcut

theorem trimLeading_exact (s : Binary) : TrimmedLead s (trimLeading s) :=
  ⟨_, (takeWhile_append_trimLeading s).symm, longestLead_takeWhile s⟩

/-- What all three functions should do: the third removes the whitespace that is left behind. -/
structure TrimsExactly (s : Binary) : Prop where
  leading : TrimmedLead s (trimLeading s)
  trailing : TrimmedTrail s (trimTrailing s)
  both : ∃ rest, TrimmedLead s rest ∧ TrimmedTrail rest (trim s)

theorem TrimmedLead.eq {s out out' : Binary} (h : TrimmedLead s out) (h' : TrimmedLead s out') :
    out = out' := by
  obtain ⟨w, rfl, hw⟩ := h
  obtain ⟨w', hs, hw'⟩ := h'
  have hlen := Nat.le_antisymm (hw'.longest w hw.whitespace hw.starts)
    (hw.longest w' hw'.whitespace hw'.starts)
  exact (List.append_inj hs hlen).2

end FzString

end Fz.Lib
