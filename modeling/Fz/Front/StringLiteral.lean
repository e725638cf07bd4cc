import Fz.Front.Operators
import Mathlib.Data.List.Basic

/-!
# Displayed strings and quoted literals

The runtime shows a bitstring that is printable UTF-8 as a quoted literal, and the lexer reads such
literals.  The two tables of escapes stand in different crates.  They agree: the lexer reads what is
shown as one binary token with the bytes of the string (`tokenize_renderBitstring`).

The renderer escapes a `#` only where a brace follows it, so the lexer must see no brace behind the
other ones.  What comes next in the literal is the next character, escaped or not, or the closing
quote, and none of them starts with a brace unless the next character is one (`head_escape`).
-/

namespace Fz.Front

/-! ## The renderer -/

/-- The bytes of a text. -/
def utf8 (s : List Char) : List UInt8 := s.flatMap String.utf8EncodeChar

/-- The text that bytes encode, if they are UTF-8. -/
def fromUtf8 (bytes : List UInt8) : Option (List Char) :=
  (ByteArray.mk bytes.toArray).utf8Decode?.map Array.toList

def isPrintableUtf8 (s : List Char) : Bool :=
  s.all fun c =>
    [0x07, 0x08, 0x09, 0x0a, 0x0b, 0x0c, 0x0d, 0x1b].contains c.val ||
      !(c.val < 0x20 || (0x7f ≤ c.val && c.val ≤ 0x9f))

/-- One character, with the characters behind it. -/
def escapeChar (c : Char) (chars : List Char) : List Char :=
  if c = '\n' then ['\x5c', 'n']
  else if c = '\r' then ['\x5c', 'r']
  else if c = '\t' then ['\x5c', 't']
  else if c = '\x5c' then ['\x5c', '\x5c']
  else if c = '\x22' then ['\x5c', '\x22']
  else if c = '#' ∧ chars.head? = some '\x7b' then ['\x5c', '#']
  else [c]

def escapeForDisplay : List Char → List Char
  | [] => []
  | c :: chars => escapeChar c chars ++ escapeForDisplay chars

/-- The bitstring of the first `bitLen` bits of some bytes. -/
def renderBitstring (bytes : List UInt8) (bitLen : Nat) : List Char :=
  let fullBytes := bitLen / 8
  let trailingBits := bitLen % 8
  let text := if trailingBits = 0 then fromUtf8 (bytes.take fullBytes) else none
  match text.filter isPrintableUtf8 with
  | some s => '\x22' :: (escapeForDisplay s ++ ['\x22'])
  | none =>
    let parts := (bytes.take fullBytes).map fun b => toString b.toNat
    let last := (bytes[fullBytes]?.getD 0).toNat >>> (8 - trailingBits)
    let parts :=
      if trailingBits > 0 then parts ++ [toString last ++ "::" ++ toString trailingBits] else parts
    '<' :: '<' :: ((", ".intercalate parts).toList ++ ['>', '>'])

/-! ## The lexer -/

structure LexError where
  msg : String
  start : Nat
  stop : Nat

/-- Why the lexer has no result. -/
inductive LexStop where
  | error (error : LexError)
  | outOfFuel

/-- The cursor, as the bytes from it on and their position, and the tokens already read. -/
structure Lexer where
  rest : List UInt8
  pos : Nat
  pending : List Token

/-- A piece of a literal.  An interpolated expression is a part of the source. -/
inductive StringPart where
  | bytes (bytes : List UInt8)
  | interpolation (start stop : Nat)

/-- True of the tokens that never start an expression. -/
def isInfixOnlyContinuation : Tok → Bool
  | .dot | .eq | .when | .or | .and | .eqEq | .notEq | .eqEqEq | .notEqEq | .lt | .ltEq | .gt
  | .gtEq | .pipe | .in | .colonColon | .slashSlash | .plusPlus | .minusMinus | .concat | .dotDot
  | .plus | .star | .slash => true
  | _ => false

namespace Lexer

def new (src : List UInt8) : Lexer := ⟨src, 0, []⟩

def peek (l : Lexer) (off : Nat) : Option UInt8 := l.rest[off]?

def bump (l : Lexer) : Option (UInt8 × Lexer) :=
  match l.rest with
  | [] => none
  | c :: rest => some (c, { l with rest := rest, pos := l.pos + 1 })

/-- The byte before the cursor is at fault. -/
def err {α : Type} (l : Lexer) (msg : String) : Except LexStop α :=
  .error (.error ⟨msg, l.pos - 1, l.pos⟩)

/-- The spaces, and a comment to the end of its line, at the front of some bytes. -/
def triviaLength : Bool → List UInt8 → Nat
  | _, [] => 0
  | true, c :: rest => if c = 0x0a then 0 else triviaLength true rest + 1
  | false, c :: rest =>
    if c = 0x20 ∨ c = 0x09 ∨ c = 0x0d then triviaLength false rest + 1
    else if c = 0x23 then triviaLength true rest + 1
    else 0

def skipTrivia (l : Lexer) : Lexer :=
  let n := triviaLength false l.rest
  { l with rest := l.rest.drop n, pos := l.pos + n }

def readEscapeByte (l : Lexer) : Except LexStop (UInt8 × Lexer) :=
  match l.bump with
  | none => l.err "unterminated escape"
  | some (c, l) =>
    if c = 0x6e then .ok (0x0a, l)
    else if c = 0x74 then .ok (0x09, l)
    else if c = 0x72 then .ok (0x0d, l)
    else if c = 0x5c then .ok (0x5c, l)
    else if c = 0x22 then .ok (0x22, l)
    else if c = 0x23 then .ok (0x23, l)
    else l.err ("unknown escape `\\" ++ (Char.ofNat c.toNat).toString ++ "` in string literal")

/-- The rest of a literal inside an interpolated expression. -/
def skipNestedLiteral : Nat → Lexer → Except LexStop Lexer
  | 0, _ => .error .outOfFuel
  | fuel + 1, l =>
    match l.bump with
    | none => l.err "unterminated string in interpolation"
    | some (c, l) =>
      if c = 0x5c then skipNestedLiteral fuel ((l.bump.map Prod.snd).getD l)
      else if c = 0x22 then .ok l
      else skipNestedLiteral fuel l

/-- The source up to the brace that closes an interpolated expression. -/
def readInterpolationRange (start : Nat) : Nat → Nat → Lexer → Except LexStop (StringPart × Lexer)
  | 0, _, _ => .error .outOfFuel
  | fuel + 1, depth, l =>
    match l.bump with
    | none => l.err "unterminated interpolation `#\x7b`"
    | some (c, l) =>
      if c = 0x7b then readInterpolationRange start fuel (depth + 1) l
      else if c = 0x7d then
        if depth - 1 = 0 then .ok (.interpolation start (l.pos - 1), l)
        else readInterpolationRange start fuel (depth - 1) l
      else if c = 0x22 then do
        let l ← skipNestedLiteral fuel l
        readInterpolationRange start fuel depth l
      else readInterpolationRange start fuel depth l

/-- A literal behind its opening quote, with the pieces and the bytes read so far. -/
def readQuotedParts :
    Nat → List StringPart → List UInt8 → Lexer → Except LexStop (List StringPart × Lexer)
  | 0, _, _, _ => .error .outOfFuel
  | fuel + 1, parts, bytes, l =>
    match l.bump with
    | none => l.err "unterminated string"
    | some (c, l) =>
      if c = 0x22 then .ok (parts ++ [.bytes bytes], l)
      else if c = 0x5c then do
        let (b, l) ← l.readEscapeByte
        readQuotedParts fuel parts (bytes ++ [b]) l
      else if c = 0x23 ∧ l.peek 0 = some 0x7b then do
        let l := (l.bump.map Prod.snd).getD l
        let (range, l) ← readInterpolationRange l.pos fuel 1 l
        readQuotedParts fuel (parts ++ [.bytes bytes, range]) [] l
      else readQuotedParts fuel parts (bytes ++ [c]) l

def readQuotedBinaryParts (fuel : Nat) (l : Lexer) : Except LexStop (List StringPart × Lexer) :=
  readQuotedParts fuel [] [] ((l.bump.map Prod.snd).getD l)

def keywordValueStartsAfterColon (l : Lexer) : Bool :=
  match l.peek 0 with
  | none => true
  | some c => [0x20, 0x09, 0x0d, 0x0a, 0x23, 0x29, 0x5d, 0x7d, 0x2c, 0x3b].contains c

end Lexer

/-- The tokens that are no quoted literals, and what an interpolated literal comes to. -/
structure OtherTokens where
  readTok : UInt8 → Lexer → Except LexStop (Tok × Lexer)
  readHeredocParts : Lexer → Except LexStop (List StringPart × Lexer)
  interpolationTokens : List StringPart → Nat → Bool → Lexer → Except LexStop (Token × Lexer)

namespace Lexer

variable (other : OtherTokens)

/-- The token of the pieces of a literal. -/
def literalToken (parts : List StringPart) (start : Nat) (spaceBefore keyword : Bool) (l : Lexer) :
    Except LexStop (Token × Lexer) :=
  if parts.any fun
      | .interpolation _ _ => true
      | .bytes _ => false then
    other.interpolationTokens parts start spaceBefore l
  else
    let bytes :=
      match parts.head? with
      | some (.bytes bytes) => bytes
      | _ => []
    if keyword && l.peek 0 = some 0x3a && l.peek 1 ≠ some 0x3a then
      let l := (l.bump.map Prod.snd).getD l
      if l.keywordValueStartsAfterColon then
        match fromUtf8 bytes with
        | some name => .ok (⟨.kwKey (String.ofList name), start, l.pos, spaceBefore⟩, l)
        -- the message goes on with the library's own account of the bytes
        | none => l.err "invalid UTF-8 in string: "
      else l.err "keyword argument must be followed by space after quoted key"
    else .ok (⟨.binary bytes, start, l.pos, spaceBefore⟩, l)

def nextToken (fuel : Nat) (l : Lexer) : Except LexStop (Token × Lexer) :=
  match l.pending with
  | token :: pending => .ok (token, { l with pending := pending })
  | [] =>
    let spaceBefore := decide (l.skipTrivia.pos ≠ l.pos)
    let l := l.skipTrivia
    let start := l.pos
    match l.bump with
    | none => .ok (⟨.eof, start, l.pos, spaceBefore⟩, l)
    | some (c, next) =>
      if c = 0x0a then .ok (⟨.newline, start, next.pos, spaceBefore⟩, next)
      else if c = 0x22 ∧ l.peek 1 = some 0x22 ∧ l.peek 2 = some 0x22 then do
        let (parts, l) ← other.readHeredocParts l
        literalToken other parts start spaceBefore false l
      else if c = 0x22 then do
        let (parts, l) ← readQuotedBinaryParts fuel l
        literalToken other parts start spaceBefore true l
      else do
        let (tok, l) ← other.readTok c l
        return (⟨tok, start, l.pos, spaceBefore⟩, l)

/-- The tokens of the source.  A token that only continues an expression takes away the newlines
before it. -/
def tokenizeFrom (fuel : Nat) : Nat → List Token → Lexer → Except LexStop (List Token)
  | 0, _, _ => .error .outOfFuel
  | n + 1, out, l => do
    let (token, l) ← nextToken other fuel l
    let out :=
      if isInfixOnlyContinuation token.tok then
        (out.reverse.dropWhile fun last => last.tok = .newline).reverse
      else out
    if token.tok = .eof then return out ++ [token]
    tokenizeFrom fuel n (out ++ [token]) l

def tokenize (fuel : Nat) (src : List UInt8) : Except LexStop (List Token) :=
  tokenizeFrom other fuel fuel [] (new src)

end Lexer

/-! ## The bytes of a text -/

theorem utf8_append (s t : List Char) : utf8 (s ++ t) = utf8 s ++ utf8 t := List.flatMap_append

theorem utf8_cons (c : Char) (s : List Char) :
    utf8 (c :: s) = String.utf8EncodeChar c ++ utf8 s := rfl

theorem utf8_of_fromUtf8 {bytes : List UInt8} {s : List Char} (h : fromUtf8 bytes = some s) :
    utf8 s = bytes := by
  obtain ⟨chars, hchars, rfl⟩ := Option.map_eq_some_iff.mp h
  have hencode := ByteArray.utf8Encode_get_utf8Decode? (b := ⟨bytes.toArray⟩)
    (h := Option.isSome_of_eq_some hchars)
  rw [Option.get_of_eq_some _ hchars, List.utf8Encode] at hencode
  have hdata := congrArg (fun b : ByteArray => b.data.toList) hencode
  simpa [utf8] using hdata

theorem fromUtf8_utf8 (s : List Char) : fromUtf8 (utf8 s) = some s := by
  have hdata : (ByteArray.mk (utf8 s).toArray) = s.utf8Encode := by
    apply ByteArray.ext
    simp [List.utf8Encode, utf8]
  rw [fromUtf8, hdata, List.utf8Decode?_utf8Encode]
  rfl

theorem or_ge (a b : UInt8) : b ≤ a ||| b := by
  rw [UInt8.le_iff_toNat_le, UInt8.toNat_or]
  exact Nat.right_le_or

theorem utf8EncodeChar_cases (c : Char) :
    (c.val ≤ 127 ∧ String.utf8EncodeChar c = [c.val.toUInt8]) ∨
      (127 < c.val ∧ String.utf8EncodeChar c ≠ [] ∧
        ∀ b ∈ String.utf8EncodeChar c, (0x80 : UInt8) ≤ b) := by
  rcases Char.utf8Size_eq c with h | h | h | h
  · exact .inl ⟨Char.utf8Size_eq_one_iff.mp h, String.utf8EncodeChar_eq_singleton h⟩
  · rw [String.utf8EncodeChar_eq_cons_cons h]
    refine .inr ⟨(Char.utf8Size_eq_two_iff.mp h).1, List.cons_ne_nil _ _, ?_⟩
    simp only [List.forall_mem_cons]
    exact ⟨UInt8.le_trans (by decide) (or_ge _ 0xc0), or_ge _ _, nofun⟩
  · rw [String.utf8EncodeChar_eq_cons_cons_cons h]
    refine .inr ⟨UInt32.lt_trans (by decide) (Char.utf8Size_eq_three_iff.mp h).1,
      List.cons_ne_nil _ _, ?_⟩
    simp only [List.forall_mem_cons]
    exact ⟨UInt8.le_trans (by decide) (or_ge _ 0xe0), or_ge _ _, or_ge _ _, nofun⟩
  · rw [String.utf8EncodeChar_eq_cons_cons_cons_cons h]
    refine .inr ⟨UInt32.lt_trans (by decide) (Char.utf8Size_eq_four_iff.mp h),
      List.cons_ne_nil _ _, ?_⟩
    simp only [List.forall_mem_cons]
    exact ⟨UInt8.le_trans (by decide) (or_ge _ 0xf0), or_ge _ _, or_ge _ _, or_ge _ _, nofun⟩

theorem eq_of_toUInt8_eq {c : Char} {n : UInt8} (hc : c.val ≤ 127) (h : c.val.toUInt8 = n) :
    c.val = n.toUInt32 := by
  rw [← h]
  apply UInt32.toNat_inj.mp
  have hle : c.val.toNat ≤ 127 := hc
  rw [UInt8.toNat_toUInt32, UInt32.toNat_toUInt8, Nat.mod_eq_of_lt (by omega)]

theorem eq_of_head_utf8 {c : Char} {n : UInt8} (hn : n < 0x80)
    (h : (String.utf8EncodeChar c).head? = some n) : c.val = n.toUInt32 := by
  rcases utf8EncodeChar_cases c with ⟨hc, heq⟩ | ⟨-, -, hall⟩
  · rw [heq] at h
    exact eq_of_toUInt8_eq hc (Option.some.inj h)
  · exact absurd (hall n (List.mem_of_head? h)) (UInt8.not_le.mpr hn)

theorem head_utf8_append {c : Char} {tail : List UInt8} {n : UInt8}
    (h : (String.utf8EncodeChar c ++ tail).head? = some n) :
    (String.utf8EncodeChar c).head? = some n := by
  rcases utf8EncodeChar_cases c with ⟨-, heq⟩ | ⟨-, hne, -⟩
  · rw [heq] at h ⊢
    exact h
  · obtain ⟨b, bs, heq⟩ := List.exists_cons_of_ne_nil hne
    rw [heq] at h ⊢
    exact h

/-! ## Escapes are read back -/

namespace Lexer

variable {pending : List Token}

/-- A character is shown as an escape that reads as its byte, or as itself. -/
inductive Shown (pending : List Token) (c : Char) (chars : List Char) : Prop where
  | escape (e : Char) (n b : UInt8) (htext : escapeChar c chars = ['\x5c', e])
    (he : String.utf8EncodeChar e = [n]) (hc : String.utf8EncodeChar c = [b])
    (hread : ∀ rest pos,
      readEscapeByte ⟨n :: rest, pos, pending⟩ = .ok (b, ⟨rest, pos + 1, pending⟩))
  | plain (htext : escapeChar c chars = [c]) (hslash : c ≠ '\x5c') (hquote : c ≠ '\x22')
    (hhash : c = '#' → chars.head? ≠ some '\x7b')

theorem shown (pending : List Token) (c : Char) (chars : List Char) : Shown pending c chars := by
  by_cases hn : c = '\n'
  · subst hn
    exact .escape 'n' 0x6e 0x0a rfl rfl rfl fun _ _ => rfl
  by_cases hr : c = '\r'
  · subst hr
    exact .escape 'r' 0x72 0x0d rfl rfl rfl fun _ _ => rfl
  by_cases ht : c = '\t'
  · subst ht
    exact .escape 't' 0x74 0x09 rfl rfl rfl fun _ _ => rfl
  by_cases hslash : c = '\x5c'
  · subst hslash
    exact .escape '\x5c' 0x5c 0x5c rfl rfl rfl fun _ _ => rfl
  by_cases hquote : c = '\x22'
  · subst hquote
    exact .escape '\x22' 0x22 0x22 rfl rfl rfl fun _ _ => rfl
  by_cases hhash : c = '#' ∧ chars.head? = some '\x7b'
  · obtain ⟨rfl, hnext⟩ := hhash
    exact .escape '#' 0x23 0x23 (by simp [escapeChar, hnext]) rfl rfl fun _ _ => rfl
  · refine .plain ?_ hslash hquote fun h hnext => hhash ⟨h, hnext⟩
    rw [escapeChar, if_neg hn, if_neg hr, if_neg ht, if_neg hslash, if_neg hquote, if_neg hhash]

theorem head_escape {chars : List Char} {tail : List UInt8}
    (h : (utf8 (escapeForDisplay chars) ++ 0x22 :: tail).head? = some 0x7b) :
    chars.head? = some '\x7b' := by
  cases chars with
  | nil => exact absurd (Option.some.inj h) (by decide)
  | cons c chars =>
    cases shown [] c chars with
    | escape e n b htext he hc hread =>
      rw [escapeForDisplay, htext] at h
      exact absurd (Option.some.inj h) (by decide)
    | plain htext hslash hquote hhash =>
      rw [escapeForDisplay, htext, List.singleton_append, utf8_cons, List.append_assoc] at h
      exact congrArg some (Char.ext (eq_of_head_utf8 (by decide) (head_utf8_append h)))

variable {parts : List StringPart} {bytes tail : List UInt8} {pos fuel : Nat}

theorem readQuotedParts_byte {b : UInt8} (hquote : b ≠ 0x22) (hslash : b ≠ 0x5c)
    (hhash : b = 0x23 → tail.head? ≠ some 0x7b) :
    readQuotedParts (fuel + 1) parts bytes ⟨b :: tail, pos, pending⟩ =
      readQuotedParts fuel parts (bytes ++ [b]) ⟨tail, pos + 1, pending⟩ := by
  have hopen : ¬(b = 0x23 ∧ peek ⟨tail, pos + 1, pending⟩ 0 = some 0x7b) := by
    rintro ⟨hb, hpeek⟩
    rw [peek, ← List.head?_eq_getElem?] at hpeek
    exact hhash hb hpeek
  rw [readQuotedParts]
  simp only [bump, if_neg hquote, if_neg hslash, if_neg hopen]

theorem readQuotedParts_bytes (bs : List UInt8) : ∀ {bytes : List UInt8} {pos : Nat},
    (∀ b ∈ bs, (0x80 : UInt8) ≤ b) →
      readQuotedParts (bs.length + fuel) parts bytes ⟨bs ++ tail, pos, pending⟩ =
        readQuotedParts fuel parts (bytes ++ bs) ⟨tail, pos + bs.length, pending⟩ := by
  induction bs with
  | nil =>
    intro bytes pos _
    rw [List.append_nil, List.length_nil, Nat.zero_add]
    rfl
  | cons b bs ih =>
    intro bytes pos hbs
    obtain ⟨hb, hbs⟩ := List.forall_mem_cons.mp hbs
    have hne : ∀ n : UInt8, n < 0x80 → b ≠ n := fun n hn heq =>
      UInt8.not_le.mpr hn (heq ▸ hb)
    rw [List.length_cons, Nat.succ_add, List.cons_append,
      readQuotedParts_byte (hne 0x22 (by decide)) (hne 0x5c (by decide))
        (fun h => absurd h (hne 0x23 (by decide))), ih hbs, List.append_assoc,
      List.singleton_append, Nat.add_right_comm]
    rfl

/-- A shown text and the closing quote are read as one piece, the bytes of the text. -/
theorem readQuotedParts_escape (pending : List Token) (tail : List UInt8) (s : List Char) :
    ∀ (fuel : Nat) (bytes : List UInt8) (pos : Nat), (utf8 (escapeForDisplay s)).length < fuel →
      readQuotedParts fuel [] bytes ⟨utf8 (escapeForDisplay s) ++ 0x22 :: tail, pos, pending⟩ =
        .ok ([.bytes (bytes ++ utf8 s)],
          ⟨tail, pos + (utf8 (escapeForDisplay s)).length + 1, pending⟩) := by
  induction s with
  | nil =>
    intro fuel bytes pos hfuel
    obtain ⟨fuel, rfl⟩ := Nat.exists_eq_add_of_lt hfuel
    rw [show utf8 [] = [] from rfl, List.append_nil]
    rfl
  | cons c chars ih =>
    intro fuel bytes pos hfuel
    rw [escapeForDisplay, utf8_append] at hfuel ⊢
    rw [List.length_append] at hfuel ⊢
    rw [utf8_cons, ← List.append_assoc bytes]
    cases shown pending c chars with
    | escape e n b htext he hc hread =>
      have hbytes : utf8 (escapeChar c chars) = [0x5c, n] := by
        rw [htext, utf8_cons, utf8_cons, he]
        rfl
      rw [hbytes] at hfuel ⊢
      rw [List.length_cons, List.length_singleton] at hfuel
      obtain ⟨fuel, rfl⟩ := Nat.exists_eq_add_of_lt (Nat.lt_of_le_of_lt (Nat.le_add_left _ _) hfuel)
      rw [readQuotedParts]
      show (do
        let (b, l) ← readEscapeByte ⟨n :: (utf8 (escapeForDisplay chars) ++ 0x22 :: tail), pos + 1,
          pending⟩
        readQuotedParts _ [] (bytes ++ [b]) l) = _
      rw [hread, hc]
      show readQuotedParts _ [] (bytes ++ [b]) _ = _
      rw [ih _ _ _ (by omega), ← Nat.add_assoc pos]
      rfl
    | plain htext hslash hquote hhash =>
      have hbytes : utf8 (escapeChar c chars) = String.utf8EncodeChar c := by
        rw [htext, utf8_cons]
        exact List.append_nil _
      rw [hbytes] at hfuel ⊢
      rw [List.append_assoc]
      rcases utf8EncodeChar_cases c with ⟨hc, heq⟩ | ⟨-, -, hall⟩
      · have hne : ∀ n : UInt8, c.val ≠ n.toUInt32 → c.val.toUInt8 ≠ n := fun n hn h =>
          hn (eq_of_toUInt8_eq hc h)
        have hval : ∀ d : Char, c ≠ d → c.val ≠ d.val := fun d hd h => hd (Char.ext h)
        rw [heq] at hfuel ⊢
        rw [List.length_singleton] at hfuel
        obtain ⟨fuel, rfl⟩ := Nat.exists_eq_add_of_lt hfuel
        rw [List.singleton_append, readQuotedParts_byte (hne _ (hval _ hquote))
          (hne _ (hval _ hslash)), ih _ _ _ (by omega), List.length_singleton, Nat.add_assoc pos]
        exact fun hb hnext => hhash (Char.ext (eq_of_toUInt8_eq hc hb)) (head_escape hnext)
      · obtain ⟨fuel, rfl⟩ := Nat.exists_eq_add_of_lt hfuel
        rw [Nat.add_assoc, Nat.add_assoc, readQuotedParts_bytes _ hall, ih _ _ _ (by omega),
          Nat.add_assoc pos]

theorem escape_not_heredoc (s : List Char) :
    ¬((utf8 (escapeForDisplay s) ++ [0x22])[0]? = some 0x22 ∧
      (utf8 (escapeForDisplay s) ++ [0x22])[1]? = some 0x22) := by
  rintro ⟨h, h'⟩
  cases s with
  | nil => exact nomatch h'
  | cons c chars =>
    rw [← List.head?_eq_getElem?] at h
    cases shown [] c chars with
    | escape e n b htext he hc hread =>
      rw [escapeForDisplay, htext] at h
      exact absurd (Option.some.inj h) (by decide)
    | plain htext hslash hquote hhash =>
      rw [escapeForDisplay, htext, List.singleton_append, utf8_cons, List.append_assoc] at h
      exact hquote (Char.ext (eq_of_head_utf8 (by decide) (head_utf8_append h)))

theorem exists_of_quoted {bytes : List UInt8} {bitLen : Nat}
    (h : (renderBitstring bytes bitLen).head? = some '\x22') :
    ∃ s, renderBitstring bytes bitLen = '\x22' :: (escapeForDisplay s ++ ['\x22']) ∧
      utf8 s = bytes.take (bitLen / 8) := by
  rw [renderBitstring] at h ⊢
  split at h
  · rename_i s hs
    obtain ⟨htext, -⟩ := Option.filter_eq_some_iff.mp hs
    split at htext
    · exact ⟨s, rfl, utf8_of_fromUtf8 htext⟩
    · exact nomatch htext
  · exact absurd (Option.some.inj h) (by decide)

theorem renderBitstring_utf8 {s : List Char} (h : isPrintableUtf8 s = true) :
    renderBitstring (utf8 s) (8 * (utf8 s).length) =
      '\x22' :: (escapeForDisplay s ++ ['\x22']) := by
  rw [renderBitstring, Nat.mul_mod_right, Nat.mul_div_cancel_left _ (by decide), List.take_length,
    if_pos rfl, fromUtf8_utf8, Option.filter_some_pos h]

variable (other : OtherTokens)

theorem nextToken_literal (s : List Char) {fuel : Nat}
    (hfuel : (utf8 (escapeForDisplay s)).length < fuel) :
    nextToken other fuel (new (0x22 :: (utf8 (escapeForDisplay s) ++ [0x22]))) =
      .ok (⟨.binary (utf8 s), 0, (utf8 (escapeForDisplay s)).length + 2, false⟩,
        ⟨[], (utf8 (escapeForDisplay s)).length + 2, []⟩) := by
  have hparts := readQuotedParts_escape [] [] s fuel [] 1 hfuel
  have hheredoc : ¬(peek ⟨0x22 :: (utf8 (escapeForDisplay s) ++ [0x22]), 0, []⟩ 1 = some 0x22 ∧
      peek ⟨0x22 :: (utf8 (escapeForDisplay s) ++ [0x22]), 0, []⟩ 2 = some 0x22) :=
    escape_not_heredoc s
  have hread : readQuotedBinaryParts fuel ⟨0x22 :: (utf8 (escapeForDisplay s) ++ [0x22]), 0, []⟩ =
      .ok ([.bytes (utf8 s)], ⟨[], (utf8 (escapeForDisplay s)).length + 2, []⟩) := by
    rw [readQuotedBinaryParts]
    refine hparts.trans ?_
    rw [List.nil_append, Nat.add_right_comm, Nat.add_comm (1 + 1)]
  have htrivia : skipTrivia ⟨0x22 :: (utf8 (escapeForDisplay s) ++ [0x22]), 0, []⟩ =
      ⟨0x22 :: (utf8 (escapeForDisplay s) ++ [0x22]), 0, []⟩ := rfl
  have hnewline : (0x22 : UInt8) ≠ 0x0a := by decide
  simp only [nextToken, new, htrivia, bump, if_neg hnewline, true_and, if_neg hheredoc, if_true,
    hread]
  rfl

theorem nextToken_eof {fuel pos : Nat} : nextToken other fuel ⟨[], pos, []⟩ =
    .ok (⟨.eof, pos, pos, false⟩, ⟨[], pos, []⟩) := by
  simp [nextToken, skipTrivia, triviaLength, bump]

theorem tokenizeFrom_token {fuel n : Nat} {out : List Token} {l l' : Lexer} {token : Token}
    (h : nextToken other fuel l = .ok (token, l'))
    (hcontinues : isInfixOnlyContinuation token.tok = false) :
    tokenizeFrom other fuel (n + 1) out l = if token.tok = .eof then .ok (out ++ [token])
      else tokenizeFrom other fuel n (out ++ [token]) l' := by
  rw [tokenizeFrom, h]
  dsimp only [Bind.bind, Except.bind]
  rw [hcontinues]
  rfl

/-- What is shown as a quoted literal is read as one binary token, with the bytes shown. -/
theorem tokenize_renderBitstring {bytes : List UInt8} {bitLen : Nat}
    (h : (renderBitstring bytes bitLen).head? = some '\x22') :
    ∃ depth, ∀ fuel ≥ depth, ∃ stop, tokenize other fuel (utf8 (renderBitstring bytes bitLen)) =
      .ok [⟨.binary (bytes.take (bitLen / 8)), 0, stop, false⟩, ⟨.eof, stop, stop, false⟩] := by
  obtain ⟨s, htext, hs⟩ := exists_of_quoted h
  refine ⟨(utf8 (escapeForDisplay s)).length + 2, fun fuel hfuel =>
    ⟨(utf8 (escapeForDisplay s)).length + 2, ?_⟩⟩
  have hbytes : utf8 (renderBitstring bytes bitLen) =
      0x22 :: (utf8 (escapeForDisplay s) ++ [0x22]) := by
    rw [htext, utf8_cons, utf8_append]
    rfl
  obtain ⟨fuel, rfl⟩ := Nat.exists_eq_add_of_le' hfuel
  rw [hbytes, ← hs]
  show tokenizeFrom other _ (fuel + (utf8 (escapeForDisplay s)).length + 1 + 1) [] _ = _
  rw [tokenizeFrom_token other (nextToken_literal other s (by omega)) rfl, if_neg nofun,
    tokenizeFrom_token other (nextToken_eof other) rfl, if_pos rfl]
  rfl

/-- The text is \x5c#, the brace and \x5cn between quotes. -/
theorem tokenize_renderBitstring_hashBrace : ∃ depth, ∀ fuel ≥ depth, ∃ stop,
      tokenize ⟨fun _ l => l.err "unexpected character", fun l => l.err "unexpected character",
          fun _ _ _ l => l.err "unexpected character"⟩ fuel
          (utf8 (renderBitstring [0x23, 0x7b, 0x0a] 24)) =
        .ok [⟨.binary [0x23, 0x7b, 0x0a], 0, stop, false⟩, ⟨.eof, stop, stop, false⟩] :=
  tokenize_renderBitstring _ (congrArg List.head?
    (renderBitstring_utf8 (show isPrintableUtf8 ['#', '\x7b', '\n'] = true by decide)))

end Lexer

end Fz.Front
