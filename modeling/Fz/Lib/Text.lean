import Mathlib.Data.List.Basic
import Mathlib.Data.List.Infix
import Mathlib.Tactic.Ring

/-!
# Binaries as text

The scanners of the string module, over binaries of whole bytes that need not be valid UTF-8.  A
search looks at every offset in turn.  Splitting, counting and replacing search again behind each
occurrence.  The empty pattern goes through the graphemes instead, and a grapheme is a code point.

How long a code point is, is read off its first byte alone: continuation bytes count as the first of
two, and the last code point may be cut off by the end (`nextCodepoint`).
-/

namespace Fz.Lib

abbrev Binary := List UInt8

namespace FzString

/-! ## Bytes -/

def takeBytes (s : Binary) (n : Nat) : Binary := if n ≤ s.length then s.take n else s

def dropBytes (s : Binary) (n : Nat) : Binary := if n ≤ s.length then s.drop n else []

@[simp] theorem takeBytes_eq (s : Binary) (n : Nat) : takeBytes s n = s.take n := by
  rw [takeBytes]
  split
  · rfl
  · rw [List.take_of_length_le (by omega)]

@[simp] theorem dropBytes_eq (s : Binary) (n : Nat) : dropBytes s n = s.drop n := by
  rw [dropBytes]
  split
  · rfl
  · rw [List.drop_eq_nil_of_le (by omega)]

def startsWith (s pattern : Binary) : Bool :=
  if s.length < pattern.length then false else takeBytes s pattern.length = pattern

theorem startsWith_iff {s pattern : Binary} : startsWith s pattern = true ↔ pattern <+: s := by
  rw [startsWith, List.prefix_iff_eq_take, takeBytes_eq]
  split
  · rename_i hlt
    refine iff_of_false Bool.false_ne_true fun heq => ?_
    have hlen := congrArg List.length heq
    rw [List.length_take] at hlen
    omega
  · rw [decide_eq_true_eq, eq_comm]

/-! ## Search -/

def indexFrom (s pattern : Binary) (position : Int) : Int :=
  if pattern.length = 0 then position
  else if s.length < pattern.length then -1
  else if startsWith s pattern then position
  else indexFrom (dropBytes s 1) pattern (position + 1)
termination_by s.length
decreasing_by
  rw [dropBytes_eq, List.length_drop]
  omega

def indexOf (s pattern : Binary) : Int := indexFrom s pattern 0

/-- The first occurrence: at an offset, and at none before it. -/
structure FirstAt (pattern s : Binary) (n : Nat) : Prop where
  starts : pattern <+: s.drop n
  first : ∀ m < n, ¬pattern <+: s.drop m

variable {pattern s : Binary}

theorem FirstAt.length_le {n : Nat} (h : FirstAt pattern s n)
    (hpattern : pattern ≠ []) : n + pattern.length ≤ s.length := by
  have hlen := h.starts.length_le
  have hpos := List.length_pos_iff.mpr hpattern
  rw [List.length_drop] at hlen
  omega

theorem indexFrom_spec {pattern : Binary} (hpattern : pattern ≠ []) (s : Binary) (position : Int) :
    (∃ n, FirstAt pattern s n ∧ indexFrom s pattern position = position + n) ∨
      (¬pattern <:+: s ∧ indexFrom s pattern position = -1) := by
  have hne : ¬pattern.length = 0 := fun h => hpattern (List.length_eq_zero_iff.mp h)
  fun_induction indexFrom s pattern position with
  | case1 s position hzero => exact absurd hzero hne
  | case2 s position _ hlt => exact .inr ⟨fun hin => absurd hin.length_le (by omega), rfl⟩
  | case3 s position _ hlt hstarts =>
    exact .inl ⟨0, ⟨startsWith_iff.mp hstarts, by simp⟩, by simp⟩
  | case4 s position _ hlt hstarts ih =>
    rw [startsWith_iff] at hstarts
    rw [dropBytes_eq] at ih ⊢
    rcases ih with ⟨n, hfirst, hn⟩ | ⟨hnone, hn⟩
    · refine .inl ⟨n + 1, ⟨?_, fun m hm => ?_⟩, by rw [hn]; push_cast; ring⟩
      · have := hfirst.starts
        rwa [List.drop_drop, Nat.add_comm] at this
      · cases m with
        | zero => exact hstarts
        | succ m =>
          have := hfirst.first m (by omega)
          rwa [List.drop_drop, Nat.add_comm] at this
    · refine .inr ⟨fun hin => ?_, hn⟩
      cases s with
      | nil => exact hpattern (List.infix_nil.mp hin)
      | cons b s =>
        rcases List.infix_cons_iff.mp hin with hstart | hin
        · exact hstarts hstart
        · exact hnone hin

/-- A search finds the first occurrence, or there is none. -/
theorem indexOf_spec {pattern : Binary} (hpattern : pattern ≠ []) (s : Binary) :
    (∃ n : Nat, FirstAt pattern s n ∧ indexOf s pattern = n) ∨
      (¬pattern <:+: s ∧ indexOf s pattern = -1) := by
  have h := indexFrom_spec hpattern s 0
  simpa [indexOf] using h

theorem indexOf_nonneg {s pattern : Binary} (hpattern : pattern ≠ []) (h : ¬indexOf s pattern < 0) :
    ∃ n : Nat, FirstAt pattern s n ∧ indexOf s pattern = n := by
  rcases indexOf_spec hpattern s with hfound | ⟨-, hnone⟩
  · exact hfound
  · rw [hnone] at h
    exact absurd (by decide) h

/-- Behind an occurrence less is left. -/
theorem length_dropBytes_indexOf {s pattern : Binary} (hpattern : pattern ≠ [])
    (h : ¬indexOf s pattern < 0) :
    (dropBytes s ((indexOf s pattern).toNat + pattern.length)).length < s.length := by
  obtain ⟨n, hfirst, hn⟩ := indexOf_nonneg hpattern h
  have hlen := hfirst.length_le hpattern
  have hpos := List.length_pos_iff.mpr hpattern
  rw [hn, dropBytes_eq, List.length_drop, Int.toNat_natCast]
  omega

/-! ## Code points -/

def firstByte : Binary → UInt8
  | c :: _ => c
  | [] => 0

def codepointSize (c : UInt8) : Nat :=
  if c < 128 then 1 else if c < 224 then 2 else if c < 240 then 3 else 4

def splitCodepoint (s : Binary) (size : Nat) : Option (Binary × Binary) :=
  some (takeBytes s size, dropBytes s size)

def nextCodepoint (s : Binary) : Option (Binary × Binary) :=
  match s with
  | [] => none
  | s => splitCodepoint s (codepointSize (firstByte s))

def nextGraphemeSize (s : Binary) : Nat := codepointSize (firstByte s)

def nextGrapheme (s : Binary) : Option (Binary × Binary) :=
  match s with
  | [] => none
  | s => splitCodepoint s (nextGraphemeSize s)

theorem codepointSize_pos (c : UInt8) : 0 < codepointSize c := by
  rw [codepointSize]
  split_ifs <;> decide

theorem nextCodepoint_cons (c : UInt8) (s : Binary) : nextCodepoint (c :: s) =
      some ((c :: s).take (codepointSize c), (c :: s).drop (codepointSize c)) := by
  rw [nextCodepoint, splitCodepoint, takeBytes_eq, dropBytes_eq]
  · rfl
  · exact List.cons_ne_nil c s

theorem nextGrapheme_eq (s : Binary) : nextGrapheme s = nextCodepoint s := by
  cases s <;> rfl

theorem length_of_nextCodepoint {s cp rest : Binary} (h : nextCodepoint s = some (cp, rest)) :
    rest.length < s.length := by
  cases s with
  | nil => exact nomatch h
  | cons c s =>
    rw [nextCodepoint_cons] at h
    cases h
    have hpos := codepointSize_pos c
    rw [List.length_drop, List.length_cons]
    omega

def graphemes (s : Binary) : List Binary :=
  match _h : nextGrapheme s with
  | none => []
  | some (g, rest) => g :: graphemes rest
termination_by s.length
decreasing_by
  rw [nextGrapheme_eq] at _h
  exact length_of_nextCodepoint _h

def codepoints (s : Binary) : List Binary :=
  match _h : nextCodepoint s with
  | none => []
  | some (cp, rest) => cp :: codepoints rest
termination_by s.length
decreasing_by exact length_of_nextCodepoint _h

def codepointCount (s : Binary) (acc : Int) : Int :=
  match h : nextCodepoint s with
  | none => acc
  | some (_, rest) => codepointCount rest (acc + 1)
termination_by s.length
decreasing_by exact length_of_nextCodepoint h

def length (s : Binary) : Int := codepointCount s 0

theorem codepoints_nil : codepoints [] = [] := by
  rw [codepoints]
  rfl

theorem codepoints_cons (c : UInt8) (s : Binary) : codepoints (c :: s) =
      (c :: s).take (codepointSize c) :: codepoints ((c :: s).drop (codepointSize c)) := by
  rw [codepoints]
  split
  · rename_i h
    rw [nextCodepoint_cons] at h
    exact nomatch h
  · rename_i cp rest h
    rw [nextCodepoint_cons] at h
    cases h
    rfl

theorem graphemes_cons (c : UInt8) (s : Binary) : graphemes (c :: s) =
      (c :: s).take (codepointSize c) :: graphemes ((c :: s).drop (codepointSize c)) := by
  rw [graphemes]
  split
  · rename_i h
    rw [nextGrapheme_eq, nextCodepoint_cons] at h
    exact nomatch h
  · rename_i g rest h
    rw [nextGrapheme_eq, nextCodepoint_cons] at h
    cases h
    rfl

theorem length_drop_codepointSize (c : UInt8) (s : Binary) :
    ((c :: s).drop (codepointSize c)).length < (c :: s).length := by
  have hpos := codepointSize_pos c
  rw [List.length_drop, List.length_cons]
  omega

/-- Along the code points of a binary, whatever its bytes are. -/
theorem codepoints_induction {P : Binary → Prop} (nil : P [])
    (cons : ∀ c s, P ((c :: s).drop (codepointSize c)) → P (c :: s)) (s : Binary) : P s := by
  induction hlen : s.length using Nat.strongRecOn generalizing s with
  | ind n ih =>
    subst hlen
    cases s with
    | nil => exact nil
    | cons c s => exact cons c s (ih _ (length_drop_codepointSize c s) _ rfl)

theorem graphemes_eq (s : Binary) : graphemes s = codepoints s := by
  induction s using codepoints_induction with
  | nil =>
    rw [graphemes, codepoints_nil]
    rfl
  | cons c s ih => rw [graphemes_cons, codepoints_cons, ih]

/-- No byte is lost between code points. -/
theorem flatten_codepoints (s : Binary) : (codepoints s).flatten = s := by
  induction s using codepoints_induction with
  | nil =>
    rw [codepoints_nil]
    rfl
  | cons c s ih => rw [codepoints_cons, List.flatten_cons, ih, List.take_append_drop]

/-! ## Splitting and joining -/

def countFrom (pattern : Binary) (hpattern : pattern ≠ []) (s : Binary) (acc : Int) : Int :=
  if h : indexOf s pattern < 0 then acc
  else
    countFrom pattern hpattern (dropBytes s ((indexOf s pattern).toNat + pattern.length)) (acc + 1)
termination_by s.length
decreasing_by exact length_dropBytes_indexOf hpattern h

def splitFrom (pattern : Binary) (hpattern : pattern ≠ []) (s : Binary) : List Binary :=
  if _h : indexOf s pattern < 0 then [s]
  else takeBytes s (indexOf s pattern).toNat ::
    splitFrom pattern hpattern (dropBytes s ((indexOf s pattern).toNat + pattern.length))
termination_by s.length
decreasing_by exact length_dropBytes_indexOf hpattern _h

def count (s pattern : Binary) : Int :=
  if h : pattern = [] then length s + 1 else countFrom pattern h s 0

def split (s pattern : Binary) : List Binary :=
  if h : pattern = [] then [[]] ++ graphemes s ++ [[]] else splitFrom pattern h s

def join : List Binary → Binary → Binary
  | [], _ => []
  | [only], _ => only
  | head :: tail, separator => head ++ separator ++ join tail separator

def replace (s pattern replacement : Binary) : Binary := join (split s pattern) replacement

/-! ## What splitting means -/

/-- A binary cut at the first occurrence of a pattern, and what is behind it cut again. -/
inductive CutAtFirst (pattern : Binary) : Binary → List Binary → Prop where
  | last {s : Binary} : ¬pattern <:+: s → CutAtFirst pattern s [s]
  | cut {head tail : Binary} {pieces : List Binary} :
      FirstAt pattern (head ++ pattern ++ tail) head.length → CutAtFirst pattern tail pieces →
      CutAtFirst pattern (head ++ pattern ++ tail) (head :: pieces)

theorem CutAtFirst.ne_nil {pieces : List Binary}
    (h : CutAtFirst pattern s pieces) : pieces ≠ [] := by
  cases h with
  | last => exact List.cons_ne_nil _ _
  | cut => exact List.cons_ne_nil _ _

theorem join_cons {head separator : Binary} {tail : List Binary} (htail : tail ≠ []) :
    join (head :: tail) separator = head ++ separator ++ join tail separator := by
  cases tail with
  | nil => exact absurd rfl htail
  | cons next tail => rfl

theorem CutAtFirst.join {pieces : List Binary}
    (h : CutAtFirst pattern s pieces) : join pieces pattern = s := by
  induction h with
  | last => rfl
  | cut _ hrest ih => rw [join_cons hrest.ne_nil, ih]

/-- The pattern is in no piece: in the one before an occurrence it would come earlier. -/
theorem CutAtFirst.not_infix {pieces : List Binary} (hpattern : pattern ≠ [])
    (h : CutAtFirst pattern s pieces) : ∀ piece ∈ pieces, ¬pattern <:+: piece := by
  induction h with
  | last hnone => exact fun piece hpiece => List.mem_singleton.mp hpiece ▸ hnone
  | @cut head tail pieces hfirst _ ih =>
    refine List.forall_mem_cons.mpr ⟨?_, ih⟩
    rintro ⟨before, after, rfl⟩
    have hpos := List.length_pos_iff.mpr hpattern
    refine hfirst.first before.length (by simp only [List.length_append]; omega) ?_
    refine ⟨after ++ (pattern ++ tail), ?_⟩
    simp [List.append_assoc]

/-- A binary with a first occurrence, taken apart there. -/
theorem FirstAt.split {n : Nat} (h : FirstAt pattern s n) :
    s = s.take n ++ pattern ++ s.drop (n + pattern.length) := by
  obtain ⟨tail, htail⟩ := h.starts
  have hdrop : s.drop (n + pattern.length) = tail := by
    rw [← List.drop_drop, ← htail, List.drop_left]
  rw [hdrop, List.append_assoc, htail, List.take_append_drop]

theorem splitFrom_cuts {pattern : Binary} (hpattern : pattern ≠ []) (s : Binary) :
    CutAtFirst pattern s (splitFrom pattern hpattern s) := by
  fun_induction splitFrom pattern hpattern s with
  | case1 s hneg =>
    rcases indexOf_spec hpattern s with ⟨n, -, hn⟩ | ⟨hnone, -⟩
    · rw [hn] at hneg
      exact absurd hneg (by omega)
    · exact .last hnone
  | case2 s hneg ih =>
    obtain ⟨n, hfirst, hn⟩ := indexOf_nonneg hpattern hneg
    rw [hn, Int.toNat_natCast] at ih ⊢
    rw [takeBytes_eq]
    rw [dropBytes_eq] at ih ⊢
    have hlen : (s.take n).length = n := by
      rw [List.length_take]
      have := hfirst.length_le hpattern
      omega
    have hcut : FirstAt pattern (s.take n ++ pattern ++ s.drop (n + pattern.length))
        (s.take n).length := by
      rw [← hfirst.split, hlen]
      exact hfirst
    have h := CutAtFirst.cut hcut ih
    rwa [← hfirst.split] at h

theorem countFrom_eq {pattern : Binary} (hpattern : pattern ≠ []) (s : Binary) (acc : Int) :
    countFrom pattern hpattern s acc + 1 = acc + (splitFrom pattern hpattern s).length := by
  fun_induction countFrom pattern hpattern s acc with
  | case1 s acc hneg =>
    rw [splitFrom, dif_pos hneg]
    rfl
  | case2 s acc hneg ih =>
    rw [ih]
    conv_rhs => rw [splitFrom, dif_neg hneg]
    rw [List.length_cons]
    push_cast
    ring

theorem join_nil_separator (pieces : List Binary) : join pieces [] = pieces.flatten := by
  induction pieces with
  | nil => rfl
  | cons piece pieces ih =>
    cases pieces with
    | nil => simp [join]
    | cons next pieces => rw [join_cons (List.cons_ne_nil _ _), ih, List.append_nil]; rfl

theorem join_split_eq (s pattern : Binary) : join (split s pattern) pattern = s := by
  rw [split]
  split
  · rename_i hnil
    subst hnil
    rw [join_nil_separator]
    simp [graphemes_eq, flatten_codepoints]
  · rename_i hpattern
    exact (splitFrom_cuts hpattern s).join

/-- Splitting is undone by joining, for any binary and any pattern.  A pattern that is not empty
cuts at its first occurrence and again behind each, so that it is in no piece, and its count and
its replacement by itself agree with the cuts. -/
theorem split_join_inverse (s pattern : Binary) :
    join (split s pattern) pattern = s ∧ replace s pattern pattern = s ∧
      (pattern ≠ [] → CutAtFirst pattern s (split s pattern) ∧
        (∀ piece ∈ split s pattern, ¬pattern <:+: piece) ∧
        count s pattern = (split s pattern).length - 1) := by
  refine ⟨join_split_eq s pattern, join_split_eq s pattern, fun hpattern => ?_⟩
  have hcuts := splitFrom_cuts hpattern s
  rw [split, dif_neg hpattern, count, dif_neg hpattern]
  refine ⟨hcuts, hcuts.not_infix hpattern, ?_⟩
  have hcount := countFrom_eq hpattern s 0
  omega

end FzString

end Fz.Lib
