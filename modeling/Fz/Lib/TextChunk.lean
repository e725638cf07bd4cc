import Fz.Bitstr.UtfScan
import Fz.Lib.Text

/-!
# Malformed text

`chunk` and `replace_invalid` go through a binary that need not be valid UTF-8.  Both take as many
bytes as the first byte announces and ask the validator about them; where it refuses, they go on by
one byte.  A first byte that announces a length is not always one that can start a code point, so
what has to be seen is that the two tests together tell exactly where a code point starts
(`validHere_iff`).
-/

namespace Fz.Lib

namespace FzString

open Fz.Bitstr

/-! ## The functions -/

def valid (s : Binary) : Bool := fzBitstringValidUtf8 (some (ofBytes s)) = 1

def validHere (s : Binary) : Bool :=
  let size := codepointSize (firstByte s)
  let candidate := takeBytes s size
  candidate.length = size && valid candidate

variable {s : Binary}

theorem length_dropBytes_lt (hne : s ≠ []) {n : Nat} (hn : 0 < n) :
    (dropBytes s n).length < s.length := by
  have hpos := List.length_pos_iff.mpr hne
  rw [dropBytes_eq, List.length_drop]
  omega

def replaceInvalid (s replacement : Binary) : Binary :=
  if _hnil : s = [] then []
  else
    let size := codepointSize (firstByte s)
    let candidate := takeBytes s size
    if candidate.length = size && valid candidate then
      candidate ++ replaceInvalid (dropBytes s size) replacement
    else replacement ++ replaceInvalid (dropBytes s 1) replacement
termination_by s.length
decreasing_by
  · exact length_dropBytes_lt _hnil (codepointSize_pos _)
  · exact length_dropBytes_lt _hnil Nat.one_pos

def chunkStep (s : Binary) (wanted : Bool) : Nat :=
  if wanted then codepointSize (firstByte s) else 1

theorem chunkStep_pos (s : Binary) (wanted : Bool) : 0 < chunkStep s wanted := by
  rw [chunkStep]
  split
  · exact codepointSize_pos _
  · exact Nat.one_pos

mutual

def chunk (s : Binary) : List Binary := if s = [] then [] else chunkSplit s (validHere s) []
termination_by (s.length, 1)

/-- One run, in `acc` as far as it has been read, and the runs behind it. -/
def chunkSplit (s : Binary) (wanted : Bool) (acc : Binary) : List Binary :=
  if _hnil : s = [] then [acc]
  else if _hwanted : validHere s = wanted then
    chunkSplit (dropBytes s (chunkStep s wanted)) wanted (acc ++ takeBytes s (chunkStep s wanted))
  else acc :: chunk s
termination_by (s.length, if validHere s = wanted then 0 else 2)
decreasing_by
  · exact Prod.Lex.left _ _ (length_dropBytes_lt _hnil (chunkStep_pos s wanted))
  · simp [_hwanted, Prod.lex_iff]

end

/-! ## Where code points start -/

def StartsChar (s : Binary) : Prop := ∃ code, Utf8Char code ∧ code <+: s

theorem not_startsChar_nil : ¬StartsChar [] := by
  rintro ⟨code, hcode, hstart⟩
  exact hcode.ne_nil (List.prefix_nil.mp hstart)

theorem valid_iff : valid s = true ↔ Utf8Text s := by
  rw [valid, decide_eq_true_eq, fzBitstringValidUtf8_iff]

/-- The first byte of a code point announces its length. -/
theorem codepointSize_char {code : Binary} (h : Utf8Char code) :
    codepointSize (firstByte code) = code.length := by
  obtain ⟨c, hreads, hwell⟩ := utf8Char_iff_reads.mp h
  have hlt : ∀ {a b : UInt8}, a < b ↔ a.toNat < b.toNat := UInt8.lt_iff_toNat_lt
  cases hreads with
  | one ha => rw [firstByte, codepointSize, if_pos (hlt.mpr ha)]; rfl
  | two ha ha' =>
    rw [firstByte, codepointSize, if_neg (fun h => ?_), if_pos (hlt.mpr ha')]
    · rfl
    · have := hlt.mp h
      simp at this
      omega
  | three ha ha' =>
    rw [firstByte, codepointSize, if_neg (fun h => ?_), if_neg (fun h => ?_), if_pos (hlt.mpr ha')]
    · rfl
    · have := hlt.mp h
      simp at this
      omega
    · have := hlt.mp h
      simp at this
      omega
  | four ha ha' =>
    rw [firstByte, codepointSize, if_neg (fun h => ?_), if_neg (fun h => ?_), if_neg (fun h => ?_)]
    · rfl
    · have := hlt.mp h
      simp at this
      omega
    · have := hlt.mp h
      simp at this
      omega
    · have := hlt.mp h
      simp at this
      omega

theorem firstByte_of_prefix {code s : Binary} (hne : code ≠ []) (h : code <+: s) :
    firstByte s = firstByte code := by
  obtain ⟨rest, rfl⟩ := h
  cases code with
  | nil => exact absurd rfl hne
  | cons c code => rfl

/-- The candidate is a code point, or there is none here. -/
theorem validHere_iff : validHere s = true ↔
    ∃ code, Utf8Char code ∧ code <+: s ∧ takeBytes s (codepointSize (firstByte s)) = code := by
  rw [validHere, Bool.and_eq_true, decide_eq_true_eq, valid_iff, takeBytes_eq]
  constructor
  · rintro ⟨hlen, codes, hcodes, hflat⟩
    have hpos := codepointSize_pos (firstByte s)
    cases codes with
    | nil =>
      rw [hflat] at hlen
      exact absurd hlen (by simp; omega)
    | cons code codes =>
      have hcode := hcodes code (.head _)
      rw [List.flatten_cons] at hflat
      have hstart : code <+: s := List.IsPrefix.trans ⟨_, hflat.symm⟩ (List.take_prefix _ _)
      have hsize := codepointSize_char hcode
      rw [← firstByte_of_prefix hcode.ne_nil hstart] at hsize
      refine ⟨code, hcode, hstart, ?_⟩
      rw [hsize]
      exact (List.prefix_iff_eq_take.mp hstart).symm
  · rintro ⟨code, hcode, hstart, htake⟩
    have hsize := codepointSize_char hcode
    rw [← firstByte_of_prefix hcode.ne_nil hstart] at hsize
    rw [htake, hsize]
    exact ⟨rfl, [code], by simpa using hcode, by simp⟩

theorem validHere_eq_startsChar (s : Binary) : validHere s = true ↔ StartsChar s := by
  constructor
  · intro h
    obtain ⟨code, hcode, hstart, -⟩ := validHere_iff.mp h
    exact ⟨code, hcode, hstart⟩
  · rintro ⟨code, hcode, hstart⟩
    refine validHere_iff.mpr ⟨code, hcode, hstart, ?_⟩
    rw [takeBytes_eq, firstByte_of_prefix hcode.ne_nil hstart, codepointSize_char hcode]
    exact (List.prefix_iff_eq_take.mp hstart).symm

/-! ## Runs -/

/-- A run of whole code points that no code point goes on, or a run of bytes where none starts, up
to the next one. -/
def IsRun : Bool → Binary → Binary → Prop
  | true, run, rest => Utf8Text run ∧ ¬StartsChar rest
  | false, run, rest => (∀ i < run.length, ¬StartsChar ((run ++ rest).drop i)) ∧
      (rest = [] ∨ StartsChar rest)

/-- A binary in runs of the two kinds in turn. -/
inductive InRuns : Bool → Binary → List Binary → Prop where
  | nil {kind : Bool} : InRuns kind [] []
  | cons {kind : Bool} {run rest : Binary} {pieces : List Binary} : run ≠ [] →
      IsRun kind run rest → InRuns (!kind) rest pieces →
      InRuns kind (run ++ rest) (run :: pieces)

variable {pieces : List Binary}

theorem InRuns.flatten {kind : Bool} (h : InRuns kind s pieces) : pieces.flatten = s := by
  induction h with
  | nil => rfl
  | cons _ _ _ ih => rw [List.flatten_cons, ih]

theorem InRuns.ne_nil {kind : Bool} (h : InRuns kind s pieces) : ∀ piece ∈ pieces, piece ≠ [] := by
  induction h with
  | nil => exact fun piece hpiece => absurd hpiece List.not_mem_nil
  | cons hne _ _ ih => exact List.forall_mem_cons.mpr ⟨hne, ih⟩

theorem chunk_nil : chunk [] = [] := by rw [chunk, if_pos rfl]

/-- The inner loop reads the run that its first bytes start. -/
theorem chunkSplit_spec (s : Binary) : ∀ (wanted : Bool) (acc : Binary),
    ∃ run rest, s = run ++ rest ∧ chunkSplit s wanted acc = (acc ++ run) :: chunk rest ∧
      IsRun wanted run rest ∧ (s ≠ [] → validHere s = wanted → run ≠ []) := by
  induction hlen : s.length using Nat.strongRecOn generalizing s with
  | ind n ih =>
    subst hlen
    intro wanted acc
    by_cases hnil : s = []
    · subst hnil
      refine ⟨[], [], rfl, by rw [chunkSplit, dif_pos rfl, chunk_nil, List.append_nil], ?_,
        fun h => absurd rfl h⟩
      cases wanted with
      | true => exact ⟨⟨[], by simp⟩, not_startsChar_nil⟩
      | false => exact ⟨by simp, .inl rfl⟩
    by_cases hwanted : validHere s = wanted
    · obtain ⟨run, rest, hs, hsplit, hrun, -⟩ := ih _
        (length_dropBytes_lt hnil (chunkStep_pos s wanted)) _ rfl wanted
        (acc ++ takeBytes s (chunkStep s wanted))
      rw [dropBytes_eq] at hs
      have hpos := chunkStep_pos s wanted
      have hs' : s = s.take (chunkStep s wanted) ++ run ++ rest := by
        rw [List.append_assoc, ← hs, List.take_append_drop]
      refine ⟨s.take (chunkStep s wanted) ++ run, rest, hs', ?_, ?_, fun _ _ => ?_⟩
      · rw [chunkSplit, dif_neg hnil, dif_pos hwanted, hsplit, takeBytes_eq, List.append_assoc]
      · cases wanted with
        | true =>
          obtain ⟨code, hcode, -, htake⟩ := validHere_iff.mp hwanted
          rw [takeBytes_eq] at htake
          rw [chunkStep, if_pos rfl, htake]
          exact ⟨(utf8Text_append_iff hcode).mpr hrun.1, hrun.2⟩
        | false =>
          refine ⟨fun i hi => ?_, hrun.2⟩
          rw [← hs']
          rw [chunkStep, if_neg Bool.false_ne_true] at hs hi
          cases i with
          | zero =>
            rw [List.drop_zero, ← validHere_eq_startsChar, hwanted]
            exact Bool.false_ne_true
          | succ i =>
            have hi' : i < run.length := by
              rw [List.length_append] at hi
              have := List.length_take_le 1 s
              omega
            have := hrun.1 i hi'
            rwa [← hs, List.drop_drop, Nat.add_comm] at this
      · have := List.length_pos_iff.mpr hnil
        simp only [ne_eq, List.append_eq_nil_iff, List.take_eq_nil_iff, not_and]
        intro h
        rcases h with h | h
        · omega
        · exact absurd h hnil
    · refine ⟨[], s, rfl, ?_, ?_, fun _ h => absurd h hwanted⟩
      · rw [chunkSplit, dif_neg hnil, dif_neg hwanted, List.append_nil]
      · cases wanted with
        | true => exact ⟨⟨[], by simp⟩, by rwa [← validHere_eq_startsChar]⟩
        | false =>
          refine ⟨by simp, .inr ?_⟩
          rw [← validHere_eq_startsChar]
          exact Bool.eq_true_of_not_eq_false hwanted

theorem chunk_inRuns (s : Binary) : InRuns (validHere s) s (chunk s) := by
  induction hlen : s.length using Nat.strongRecOn generalizing s with
  | ind n ih =>
    subst hlen
    by_cases hnil : s = []
    · subst hnil
      rw [chunk_nil]
      exact .nil
    obtain ⟨run, rest, hs, hsplit, hrun, hne⟩ := chunkSplit_spec s (validHere s) []
    have hne := hne hnil rfl
    have hrest := ih rest.length (by
      have := List.length_pos_iff.mpr hne
      rw [hs, List.length_append]
      omega) rest rfl
    have hnext : InRuns (!validHere s) rest (chunk rest) := by
      by_cases hrestNil : rest = []
      · rw [hrestNil, chunk_nil]
        exact .nil
      · convert hrest using 1
        cases hkind : validHere s with
        | true =>
          rw [hkind] at hrun
          exact (Bool.eq_false_iff.mpr fun h =>
            hrun.2 ((validHere_eq_startsChar rest).mp h)).symm
        | false =>
          rw [hkind] at hrun
          exact ((validHere_eq_startsChar rest).mpr (hrun.2.resolve_left hrestNil)).symm
    rw [chunk, if_neg hnil, hsplit, List.nil_append]
    have h := InRuns.cons hne hrun hnext
    rwa [← hs] at h

/-! ## Replacement -/

theorem replaceInvalid_eq (hne : s ≠ []) (r : Binary) : replaceInvalid s r =
      if validHere s then takeBytes s (codepointSize (firstByte s)) ++
        replaceInvalid (dropBytes s (codepointSize (firstByte s))) r
      else r ++ replaceInvalid (dropBytes s 1) r := by
  rw [replaceInvalid, dif_neg hne]
  rfl

theorem replaceInvalid_char {code : Binary} (hcode : Utf8Char code) (rest r : Binary) :
    replaceInvalid (code ++ rest) r = code ++ replaceInvalid rest r := by
  have hsize := codepointSize_char hcode
  rw [← firstByte_of_prefix hcode.ne_nil (List.prefix_append code rest)] at hsize
  rw [replaceInvalid_eq (List.append_ne_nil_of_left_ne_nil hcode.ne_nil rest),
    if_pos ((validHere_eq_startsChar _).mpr ⟨code, hcode, List.prefix_append code rest⟩),
    takeBytes_eq, dropBytes_eq, hsize, List.take_left, List.drop_left]

theorem replaceInvalid_byte {b : UInt8} {rest : Binary} (h : ¬StartsChar (b :: rest)) (r : Binary) :
    replaceInvalid (b :: rest) r = r ++ replaceInvalid rest r := by
  rw [replaceInvalid_eq (List.cons_ne_nil b rest), if_neg (mt (validHere_eq_startsChar _).mp h),
    dropBytes_eq]
  rfl

theorem replaceInvalid_text {run : Binary} (hrun : Utf8Text run) (rest r : Binary) :
    replaceInvalid (run ++ rest) r = run ++ replaceInvalid rest r := by
  obtain ⟨codes, hcodes, rfl⟩ := hrun
  induction codes with
  | nil => rfl
  | cons code codes ih =>
    obtain ⟨hcode, hcodes⟩ := List.forall_mem_cons.mp hcodes
    rw [List.flatten_cons, List.append_assoc, replaceInvalid_char hcode, ih hcodes,
      List.append_assoc]

theorem replaceInvalid_bytes {run rest : Binary}
    (hrun : ∀ i < run.length, ¬StartsChar ((run ++ rest).drop i)) (r : Binary) :
    replaceInvalid (run ++ rest) r = run.flatMap (fun _ => r) ++ replaceInvalid rest r := by
  induction run with
  | nil => rfl
  | cons b run ih =>
    have hfirst : ¬StartsChar (b :: (run ++ rest)) := hrun 0 (Nat.succ_pos _)
    rw [List.cons_append, replaceInvalid_byte hfirst, ih fun i hi => hrun (i + 1)
      (Nat.succ_lt_succ hi), List.flatMap_cons, List.append_assoc]

/-- The runs with each byte of the malformed ones replaced. -/
def replaced (r : Binary) : Bool → List Binary → Binary
  | _, [] => []
  | true, run :: pieces => run ++ replaced r false pieces
  | false, run :: pieces => run.flatMap (fun _ => r) ++ replaced r true pieces

/-- The bytes of the malformed runs. -/
def malformed : Bool → List Binary → Binary
  | _, [] => []
  | true, _ :: pieces => malformed false pieces
  | false, run :: pieces => run ++ malformed true pieces

theorem InRuns.replaceInvalid_eq {kind : Bool}
    (h : InRuns kind s pieces) (r : Binary) : replaceInvalid s r = replaced r kind pieces := by
  induction h with
  | nil =>
    rw [replaceInvalid, dif_pos rfl]
    cases ‹Bool› <;> rfl
  | @cons kind run rest pieces _ hrun _ ih =>
    cases kind with
    | true => rw [replaceInvalid_text hrun.1, ih]; rfl
    | false => rw [replaceInvalid_bytes hrun.1, ih]; rfl

theorem utf8Text_append {a b : Binary} (ha : Utf8Text a) (hb : Utf8Text b) : Utf8Text (a ++ b) := by
  obtain ⟨codes, hcodes, rfl⟩ := ha
  obtain ⟨codes', hcodes', rfl⟩ := hb
  refine ⟨codes ++ codes', fun code hcode => ?_, List.flatten_append.symm⟩
  rcases List.mem_append.mp hcode with hcode | hcode
  · exact hcodes code hcode
  · exact hcodes' code hcode

theorem utf8Text_flatMap {r : Binary} (hr : Utf8Text r) (run : Binary) :
    Utf8Text (run.flatMap fun _ => r) := by
  induction run with
  | nil => exact ⟨[], by simp⟩
  | cons b run ih =>
    rw [List.flatMap_cons]
    exact utf8Text_append hr ih

theorem InRuns.utf8Text_replaced {kind : Bool} {s r : Binary}
    (h : InRuns kind s pieces) (hr : Utf8Text r) : Utf8Text (replaced r kind pieces) := by
  induction h with
  | nil => exact ⟨[], by cases ‹Bool› <;> simp [replaced]⟩
  | @cons kind run rest pieces _ hrun _ ih =>
    cases kind with
    | true => exact utf8Text_append hrun.1 ih
    | false => exact utf8Text_append (utf8Text_flatMap hr run) ih

theorem length_flatMap_const (run r : Binary) :
    (run.flatMap fun _ => r).length = run.length * r.length := by
  induction run with
  | nil => simp
  | cons b run ih =>
    rw [List.flatMap_cons, List.length_append, ih, List.length_cons, Nat.succ_mul, Nat.add_comm]

theorem replaced_of_malformed_nil (r : Binary) (pieces : List Binary) : ∀ kind : Bool,
    malformed kind pieces = [] → replaced r kind pieces = pieces.flatten := by
  induction pieces with
  | nil => intro kind _; cases kind <;> rfl
  | cons run pieces ih =>
    intro kind h
    cases kind with
    | true => rw [replaced, List.flatten_cons, ih false h]
    | false =>
      obtain ⟨rfl, h⟩ := List.append_eq_nil_iff.mp h
      rw [replaced, List.flatten_cons, ih true h, List.flatMap_nil]

/-- What a replacement changes of the length. -/
theorem length_replaced (r : Binary) (pieces : List Binary) : ∀ kind : Bool,
    (replaced r kind pieces).length + (malformed kind pieces).length =
      pieces.flatten.length + (malformed kind pieces).length * r.length := by
  induction pieces with
  | nil => intro kind; cases kind <;> simp [replaced, malformed]
  | cons run pieces ih =>
    intro kind
    cases kind with
    | true =>
      have := ih false
      simp only [replaced, malformed, List.length_append, List.flatten_cons]
      omega
    | false =>
      have := ih true
      simp only [replaced, malformed, List.length_append, List.flatten_cons, length_flatMap_const,
        Nat.add_mul]
      omega

theorem flatMap_const_eq_iff (b : UInt8) (run : Binary) :
    run.flatMap (fun _ => [b]) = run ↔ ∀ x ∈ run, [b] = [x] := by
  induction run with
  | nil => simp
  | cons x run ih =>
    rw [List.flatMap_cons, List.singleton_append, List.cons.injEq, ih, List.forall_mem_cons]
    simp

/-- A replacement by one byte changes nothing where that byte stands already. -/
theorem replaced_eq_iff (b : UInt8) (pieces : List Binary) : ∀ kind : Bool,
    replaced [b] kind pieces = pieces.flatten ↔ ∀ x ∈ malformed kind pieces, [b] = [x] := by
  induction pieces with
  | nil => intro kind; cases kind <;> simp [replaced, malformed]
  | cons run pieces ih =>
    intro kind
    cases kind with
    | true => rw [replaced, malformed, List.flatten_cons, List.append_cancel_left_eq, ih]
    | false =>
      rw [replaced, malformed, List.flatten_cons, List.forall_mem_append, ← ih,
        ← flatMap_const_eq_iff]
      have hlen : (run.flatMap fun _ => [b]).length = run.length := by
        rw [length_flatMap_const, List.length_singleton, Nat.mul_one]
      constructor
      · intro h
        exact List.append_inj h hlen
      · rintro ⟨h, h'⟩
        rw [h, h']

theorem InRuns.malformed_eq_nil_iff {kind : Bool}
    (h : InRuns kind s pieces) : malformed kind pieces = [] ↔ Utf8Text s := by
  induction h with
  | nil => exact iff_of_true (by cases ‹Bool› <;> rfl) ⟨[], by simp⟩
  | @cons kind run rest pieces hne hrun _ ih =>
    cases kind with
    | true =>
      obtain ⟨codes, hcodes, rfl⟩ := hrun.1
      rw [malformed]
      refine ih.trans ?_
      clear hrun hne
      induction codes with
      | nil => rfl
      | cons code codes ihc =>
        obtain ⟨hcode, hcodes⟩ := List.forall_mem_cons.mp hcodes
        rw [List.flatten_cons, List.append_assoc, utf8Text_append_iff hcode]
        exact ihc hcodes
    | false =>
      rw [malformed]
      refine iff_of_false (fun h => hne (List.append_eq_nil_iff.mp h).1) ?_
      rintro ⟨codes, hcodes, hflat⟩
      have hpos := List.length_pos_iff.mpr hne
      have hstart := hrun.1 0 hpos
      rw [List.drop_zero] at hstart
      cases codes with
      | nil => exact hne (List.append_eq_nil_iff.mp hflat).1
      | cons code codes => exact hstart ⟨code, hcodes code (.head _), ⟨_, hflat.symm⟩⟩

/-- The pieces of a binary are runs of code points and runs where none starts, in turn and as long
as they can be.  Replacing puts the replacement for each byte of the latter. -/
theorem chunk_exact (s r : Binary) :
    InRuns (validHere s) s (chunk s) ∧ (chunk s).flatten = s ∧ (∀ piece ∈ chunk s, piece ≠ []) ∧
      replaceInvalid s r = replaced r (validHere s) (chunk s) ∧
      (Utf8Text r → Utf8Text (replaceInvalid s r)) ∧ (replaceInvalid s r = s ↔
        Utf8Text s ∨ ∀ b ∈ malformed (validHere s) (chunk s), r = [b]) := by
  have hruns := chunk_inRuns s
  refine ⟨hruns, hruns.flatten, hruns.ne_nil, hruns.replaceInvalid_eq r, fun hr => ?_, ?_⟩
  · rw [hruns.replaceInvalid_eq r]
    exact hruns.utf8Text_replaced hr
  · rw [hruns.replaceInvalid_eq r, ← hruns.malformed_eq_nil_iff]
    conv_lhs => rhs; rw [← hruns.flatten]
    have hlen := length_replaced r (chunk s) (validHere s)
    constructor
    · intro heq
      by_cases hnil : malformed (validHere s) (chunk s) = []
      · exact .inl hnil
      -- Something is replaced, so one byte takes the place of one byte.
      have hpos := List.length_pos_iff.mpr hnil
      rw [heq] at hlen
      have hone : r.length = 1 := by
        have : (malformed (validHere s) (chunk s)).length * r.length =
            (malformed (validHere s) (chunk s)).length * 1 := by omega
        exact Nat.eq_of_mul_eq_mul_left hpos this
      obtain ⟨b, rfl⟩ := List.length_eq_one_iff.mp hone
      exact .inr ((replaced_eq_iff b (chunk s) (validHere s)).mp heq)
    · intro h
      by_cases hnil : malformed (validHere s) (chunk s) = []
      · exact replaced_of_malformed_nil r (chunk s) (validHere s) hnil
      · have hall := h.resolve_left hnil
        obtain ⟨b, bytes, hbytes⟩ := List.exists_cons_of_ne_nil hnil
        obtain rfl := hall b (hbytes ▸ .head _)
        exact (replaced_eq_iff b (chunk s) (validHere s)).mpr hall

end FzString

end Fz.Lib
