import Fz.Front.Operators

/-!
# Printed operator expressions are read back

An expression over integer literals, identifiers, the unary and the infix operators is printed on
one line with spaces around its operators.  A `Style` chooses the parentheses; it is enough that it
has those that the binding powers ask for (`Style.Covers`).  The prefix of a printed expression
stands for the expression itself in the loop of the parser (`parseBp_operand`): the operators on
its left edge are not below the minimum, and what follows it binds less than the operators on its
right edge.
-/

namespace Fz.Front

inductive Unary where
  | minus | not
  deriving DecidableEq

inductive Infix where
  | eq | or | and | eqEq | notEq | eqEqEq | notEqEq | lt | ltEq | gt | gtEq | pipe | in | notIn
  | slashSlash | plusPlus | minusMinus | concat | dotDot | plus | minus | star | slash | percent
  deriving DecidableEq

inductive Expr where
  | int (value : Nat)
  | ident (name : String)
  | unary (op : Unary) (operand : Expr)
  | operator (op : Infix) (left right : Expr)

namespace Unary

def tok : Unary → Tok
  | minus => .minus
  | not => .not

def name : Unary → String
  | minus => "-"
  | not => "not"

end Unary

namespace Infix

/-- The tokens of an operator. -/
def toks : Infix → List Tok
  | eq => [.eq]
  | or => [.or]
  | and => [.and]
  | eqEq => [.eqEq]
  | notEq => [.notEq]
  | eqEqEq => [.eqEqEq]
  | notEqEq => [.notEqEq]
  | lt => [.lt]
  | ltEq => [.ltEq]
  | gt => [.gt]
  | gtEq => [.gtEq]
  | pipe => [.pipe]
  | .in => [.in]
  | notIn => [.not, .in]
  | slashSlash => [.slashSlash]
  | plusPlus => [.plusPlus]
  | minusMinus => [.minusMinus]
  | concat => [.concat]
  | dotDot => [.dotDot]
  | plus => [.plus]
  | minus => [.minus]
  | star => [.star]
  | slash => [.slash]
  | percent => [.percent]

/-- The powers and the name of an operator: those of its token, if it is in the table. -/
def entry : Infix → Nat × Nat × String
  | eq => (5, 5, "=")
  | notIn => (70, 71, "not in")
  | op => (op.toks.head?.bind infixBp).getD (0, 0, "")

def lbp (op : Infix) : Nat := op.entry.1

def rbp (op : Infix) : Nat := op.entry.2.1

def name (op : Infix) : String := op.entry.2.2

end Infix

namespace Expr

/-- The quoted source of an expression. -/
def quoted : Expr → Quoted
  | int value => .int value
  | ident name => .ofVariable name
  | unary op operand => .call op.name [operand.quoted]
  | .operator op left right => .call op.name [left.quoted, right.quoted]

def isInfix : Expr → Bool
  | .operator .. => true
  | _ => false

end Expr

/-- Which parts of an expression are printed in parentheses. -/
structure Style where
  operand : Unary → Expr → Bool
  left : Infix → Expr → Bool
  right : Infix → Expr → Bool

namespace Style

/-- Only the parentheses that the binding powers ask for. -/
def minimal : Style where
  operand _ e := e.isInfix
  left op e := match e with
    | .operator op' .. => !decide (op.lbp < op'.rbp)
    | _ => false
  right op e := match e with
    | .operator op' .. => !decide (op.rbp ≤ op'.lbp)
    | _ => false

def full : Style := ⟨fun _ _ => true, fun _ _ => true, fun _ _ => true⟩

def parens (wrap : Bool) (shown : Bool → List (Tok × Bool)) (space : Bool) : List (Tok × Bool) :=
  if wrap then (.lParen, space) :: shown false ++ [(.rParen, false)] else shown space

/-- The tokens of a printed expression, each with the space before it. -/
def shown (style : Style) : Expr → Bool → List (Tok × Bool)
  | .int value, space => [(.int value, space)]
  | .ident name, space => [(.ident name, space)]
  | .unary op e, space => (op.tok, space) :: parens (style.operand op e) (style.shown e) true
  | .operator op l r, space =>
    parens (style.left op l) (style.shown l) space ++ op.toks.map (·, true) ++
      parens (style.right op r) (style.shown r) true

/-- A style with at least the parentheses of another. -/
structure Covers (style other : Style) : Prop where
  operand : ∀ op e, other.operand op e = true → style.operand op e = true
  left : ∀ op e, other.left op e = true → style.left op e = true
  right : ∀ op e, other.right op e = true → style.right op e = true

end Style

theorem Style.minimal_left {op op' : Infix} {l r : Expr} :
    minimal.left op (.operator op' l r) = !decide (op.lbp < op'.rbp) := rfl

theorem Style.minimal_right {op op' : Infix} {l r : Expr} :
    minimal.right op (.operator op' l r) = !decide (op.rbp ≤ op'.lbp) := rfl

/-! ## Powers -/

theorem lbp_le_of_lt_rbp (op op' : Infix) : op.lbp < op'.rbp → op.lbp ≤ op'.lbp := by
  cases op <;> cases op' <;> decide

theorem rbp_le_of_rbp_le_lbp (op op' : Infix) : op.rbp ≤ op'.lbp → op.rbp ≤ op'.rbp := by
  cases op <;> cases op' <;> decide

theorem lbp_lt_unary (op : Infix) : op.lbp < 120 := by
  cases op <;> decide

/-! ## What can follow an expression -/

/-- The tokens of a list, each with the space before it. -/
def shows (toks : List Token) : List (Tok × Bool) := toks.map fun t => (t.tok, t.spaceBefore)

/-- A token that can start an operand. -/
def StartsOperand (tok : Tok) : Prop := tok ≠ .newline ∧ ∀ name, tok ≠ .kwKey name

/-- What follows a printed expression: the end of the input or of parentheses, or an operator and
an operand after a space. -/
inductive Follows : List Token → Option Infix → Prop where
  | close {token : Token} {rest : List Token} (h : token.tok = .rParen ∨ token.tok = .eof) :
    Follows (token :: rest) none
  | operator {toks rest : List Token} {token : Token} (op : Infix)
    (h : shows toks = op.toks.map (·, true)) (hspace : token.spaceBefore = true)
    (hstart : StartsOperand token.tok) : Follows (toks ++ token :: rest) (some op)

/-- What follows stops the loop at a minimum. -/
def Stops (minBp : Nat) (next : Option Infix) : Prop := ∀ op, next = some op → op.lbp < minBp

/-! ## The loop -/

variable {grammar : Grammar} {fuel minBp : Nat} {lhs : ParsedExpr} {p : Parser}

/-- A token that ends an expression, or an operator of the table before a space. -/
inductive Tabled : Tok → Option Infix → Prop where
  | rParen : Tabled .rParen none
  | eof : Tabled .eof none
  | operator (op : Infix) (tok : Tok) (htoks : op.toks = [tok]) (heq : op ≠ .eq) :
    Tabled tok (some op)

variable {next : Option Infix}

theorem Tabled.ne {tok : Tok} (h : Tabled tok next) :
    tok ≠ .lParen ∧ tok ≠ .dot ∧ tok ≠ .lBrack ∧ tok ≠ .eq ∧ tok ≠ .not ∧ tok ≠ .do ∧
      tok ≠ .colonColon := by
  cases h with
  | rParen => decide
  | eof => decide
  | operator op tok htoks heq =>
    cases op <;> cases htoks <;> first | contradiction | decide

theorem Tabled.startsNoParensArg (h : Tabled p.peek next)
    (hspace : next.isSome = true → p.spaceBeforeAt 1 = true) : p.startsNoParensArg = false := by
  rw [Parser.startsNoParensArg]
  generalize p.peek = tok at h
  cases h with
  | rParen => rw [Bool.and_false]
  | eof => rw [Bool.and_false]
  | operator op tok htoks heq =>
    rw [hspace rfl, Bool.not_true]
    cases op <;> cases htoks <;> first | contradiction | exact Bool.and_false _

theorem Tabled.infixBp {tok : Tok} (h : Tabled tok next) : infixBp tok = next.map Infix.entry := by
  cases h with
  | rParen => rfl
  | eof => rfl
  | operator op tok htoks heq =>
    cases op <;> cases htoks <;> first | contradiction | rfl

theorem parseBpTail_of_tabled (h : Tabled p.peek next)
    (hspace : next.isSome = true → p.spaceBeforeAt 1 = true) :
    parseBpTail grammar (fuel + 1) lhs minBp p =
      (match next with
      | none => .ok (lhs, p)
      | some op =>
        if op.lbp < minBp then .ok (lhs, p)
        else do
          let (rhs, p) ←
            match p.advance.skipNewlines.peek with
            | .kwKey _ =>
              if op.name = "when" then do
                let (root, p) ← grammar.keywordListExpr p.advance.skipNewlines
                return (.plain root, p)
              else parseBp grammar fuel op.rbp p.advance.skipNewlines
            | _ => parseBp grammar fuel op.rbp p.advance.skipNewlines
          parseBpTail grammar fuel (.plain (.call op.name [lhs.root, rhs.root])) minBp p) := by
  obtain ⟨hparen, hdot, hbrack, heq, hnot, hdo, hcolon⟩ := h.ne
  rw [parseBpTail, if_neg (fun hp => hparen hp.1), if_neg (fun hp => hdot hp.1), if_neg hdot,
    if_neg hbrack, if_neg heq, if_neg (fun hp => hnot hp.1), h.startsNoParensArg hspace,
    Bool.and_false, if_neg Bool.false_ne_true, decide_eq_false hdo, Bool.and_false,
    if_neg Bool.false_ne_true, h.infixBp, decide_eq_false hcolon]
  cases next with
  | none => rfl
  | some op =>
    simp only [Option.map_some, Bool.and_false, Bool.false_eq_true, if_false]
    rfl

/-- The parser at a later place in its tokens. -/
def Parser.resume (p : Parser) (rest : List Token) : Parser :=
  { p with rest := rest, sawNoParensCall := false }

theorem peek_cons {token : Token} {rest : List Token} (h : p.rest = token :: rest) :
    p.peek = token.tok := by
  rw [Parser.peek, Parser.peekAt, h]
  rfl

theorem advance_cons {token token' : Token} {rest : List Token}
    (h : p.rest = token :: token' :: rest) : p.advance = { p with rest := token' :: rest } := by
  rw [Parser.advance, h]

theorem skipNewlines_cons {token : Token} {rest : List Token} (h : p.rest = token :: rest)
    (hstart : StartsOperand token.tok) : p.skipNewlines = p := by
  rw [Parser.skipNewlines, h, List.dropWhile_cons_of_neg (by simpa using hstart.1), ← h]

/-! ## The first token of an operand -/

section

variable {token : Token} {rest : List Token}

theorem parsePrefix_int {value : Nat} (h : p.rest = token :: rest) (ht : token.tok = .int value) :
    parsePrefix grammar (fuel + 1) p = .ok (.plain (.int value), p.advance) := by
  cases p
  cases token
  cases h
  cases ht
  rfl

theorem parsePrefix_ident {name : String} (h : p.rest = token :: rest)
    (ht : token.tok = .ident name) (hnext : p.advance.peek ≠ .colonColon) :
    parsePrefix grammar (fuel + 1) p = .ok (.directName (.ofVariable name) name, p.advance) := by
  have hfold : (p.advance.allowExternSymbolFolding && p.advance.peek = .colonColon &&
      (p.rest[0]?.map Token.stop).getD 0 = (p.advance.rest[0]?.map Token.start).getD 0) =
        false := by
    rw [decide_eq_false hnext, Bool.and_false, Bool.false_and]
  cases p
  cases token
  cases h
  cases ht
  exact if_neg (ne_true_of_eq_false hfold)

theorem parsePrefix_lParen (h : p.rest = token :: rest) (ht : token.tok = .lParen) :
    parsePrefix grammar (fuel + 1) p = (do
      let (inner, p) ←
        p.advance.withMatchedDoBoundary fun p => parseBp grammar fuel 0 p.skipNewlines
      let (_, p) ← p.expect .rParen "`)`"
      return (.plain inner.root, p)) := by
  cases p
  cases token
  cases h
  cases ht
  rfl

theorem parsePrefix_unary {op : Unary} (h : p.rest = token :: rest) (ht : token.tok = op.tok) :
    parsePrefix grammar (fuel + 1) p = (do
      let (inner, p) ← parseBp grammar fuel 120 p.advance
      return (.plain (.call op.name [inner.root]), p)) := by
  cases p
  cases token
  cases h
  cases op with
  | minus => cases ht; rfl
  | not => cases ht; rfl

end

theorem exists_of_shows {toks : List Token} {tok : Tok} {space : Bool}
    {shown : List (Tok × Bool)} (h : shows toks = (tok, space) :: shown) :
    ∃ token toks', toks = token :: toks' ∧ token.tok = tok ∧ token.spaceBefore = space ∧
      shows toks' = shown := by
  obtain ⟨token, toks', rfl, htoken, hshown⟩ := List.map_eq_cons_iff.mp h
  exact ⟨token, toks', rfl, congrArg Prod.fst htoken, congrArg Prod.snd htoken, hshown⟩

theorem toks_eq_singleton {op : Infix} (heq : op ≠ .notIn) : ∃ tok, op.toks = [tok] := by
  cases op <;> first | contradiction | exact ⟨_, rfl⟩

/-- An operator either stops the loop or is read with its right operand. -/
theorem parseBpTail_operator {op : Infix} {toks rest : List Token} {token : Token}
    (hrest : p.rest = toks ++ token :: rest) (h : shows toks = op.toks.map (·, true))
    (hspace : token.spaceBefore = true) (hstart : StartsOperand token.tok) :
    parseBpTail grammar (fuel + 1) lhs minBp p =
      (if op.lbp < minBp then .ok (lhs, p)
      else do
        let (rhs, p) ← parseBp grammar fuel op.rbp { p with rest := token :: rest }
        parseBpTail grammar fuel (.plain (.call op.name [lhs.root, rhs.root])) minBp p) := by
  by_cases hnot : op = .notIn
  · subst hnot
    obtain ⟨t₁, toks, rfl, ht₁, -, h⟩ := exists_of_shows h
    obtain ⟨t₂, toks, rfl, ht₂, -, h⟩ := exists_of_shows h
    obtain rfl := List.map_eq_nil_iff.mp h
    have hpeek : p.peek = .not := (peek_cons hrest).trans ht₁
    have hpeek₁ : p.peekAt 1 = .in := by
      rw [Parser.peekAt, hrest]
      exact ht₂
    have hadvance : p.advance.advance.skipNewlines = { p with rest := token :: rest } := by
      rw [advance_cons hrest, advance_cons rfl]
      exact skipNewlines_cons rfl hstart
    rw [parseBpTail, hpeek, hpeek₁, hadvance]
    rfl
  obtain ⟨tok, htoks⟩ := toks_eq_singleton hnot
  rw [htoks] at h
  obtain ⟨t, toks, rfl, ht, -, h⟩ := exists_of_shows h
  obtain rfl := List.map_eq_nil_iff.mp h
  have hpeek : p.peek = tok := (peek_cons hrest).trans ht
  have hadvance : p.advance.skipNewlines = { p with rest := token :: rest } := by
    rw [advance_cons hrest]
    exact skipNewlines_cons rfl hstart
  by_cases heq : op = .eq
  · subst heq
    cases htoks
    rw [parseBpTail, hpeek, hadvance]
    rfl
  · have htabled : Tabled p.peek (some op) := hpeek ▸ .operator op tok htoks heq
    have hspace₁ : p.spaceBeforeAt 1 = true := by
      rw [Parser.spaceBeforeAt, hrest]
      exact hspace
    rw [parseBpTail_of_tabled htabled fun _ => hspace₁, hadvance]
    dsimp only
    split
    · rfl
    · have hstart' : Parser.peek { p with rest := token :: rest } = token.tok := peek_cons rfl
      rw [hstart']
      split
      · rename_i name hkey
        exact absurd hkey (hstart.2 name)
      · rfl

theorem parseBpTail_stop (hfollows : Follows p.rest next) (hstops : Stops minBp next) :
    parseBpTail grammar (fuel + 1) lhs minBp p = .ok (lhs, p) := by
  generalize hrest : p.rest = rest at hfollows
  cases hfollows with
  | close h =>
    have htabled : Tabled p.peek none := by
      rw [peek_cons hrest]
      rcases h with h | h
      · rw [h]
        exact .rParen
      · rw [h]
        exact .eof
    rw [parseBpTail_of_tabled htabled nofun]
  | operator op h hspace hstart =>
    rw [parseBpTail_operator hrest h hspace hstart, if_pos (hstops op rfl)]

/-! ## Operands -/

theorem Follows.cons {rest : List Token} (h : Follows rest next) :
    ∃ token rest', rest = token :: rest' ∧ token.tok ≠ .colonColon := by
  cases h with
  | @close token rest h =>
    refine ⟨token, rest, rfl, ?_⟩
    rcases h with h | h <;> rw [h] <;> decide
  | @operator toks rest token op h hspace hstart =>
    obtain ⟨tok, toks', htoks, hne⟩ : ∃ tok toks', op.toks = tok :: toks' ∧ tok ≠ .colonColon := by
      cases op <;> exact ⟨_, _, rfl, nofun⟩
    rw [htoks] at h
    obtain ⟨t, toks, rfl, rfl, -, -⟩ := exists_of_shows h
    exact ⟨t, toks ++ token :: rest, rfl, hne⟩

theorem parens_cons {style : Style} {e : Expr} {space : Bool} (wrap : Bool)
    (h : ∃ tok shown, style.shown e space = (tok, space) :: shown ∧ StartsOperand tok) :
    ∃ tok shown, Style.parens wrap (style.shown e) space = (tok, space) :: shown ∧
      StartsOperand tok := by
  cases wrap with
  | true => exact ⟨.lParen, _, rfl, nofun, nofun⟩
  | false => exact h

theorem shown_cons (style : Style) (e : Expr) (space : Bool) :
    ∃ tok shown, style.shown e space = (tok, space) :: shown ∧ StartsOperand tok := by
  induction e generalizing space with
  | int value => exact ⟨_, _, rfl, nofun, nofun⟩
  | ident name => exact ⟨_, _, rfl, nofun, nofun⟩
  | unary op e ih => cases op <;> exact ⟨_, _, rfl, nofun, nofun⟩
  | operator op l r ihl ihr =>
    obtain ⟨tok, shown, hshown, hstart⟩ := parens_cons (style.left op l) (ihl space)
    exact ⟨tok, _, by rw [Style.shown, hshown]; rfl, hstart⟩

/-- With enough fuel a parse returns a given quoted source and leaves a given parser. -/
def ReadsTo (f : Nat → Except Stop (ParsedExpr × Parser)) (root : Quoted) (p : Parser) : Prop :=
  ∃ lhs : ParsedExpr, lhs.root = root ∧ ∃ n, ∀ fuel, n ≤ fuel → f fuel = .ok (lhs, p)

theorem readsTo_stop (hfollows : Follows p.rest next) (hstops : Stops minBp next) :
    ReadsTo (fun fuel => parseBpTail grammar fuel lhs minBp p) lhs.root p := by
  refine ⟨lhs, rfl, 1, fun fuel hfuel => ?_⟩
  obtain ⟨fuel, rfl⟩ := Nat.exists_eq_add_of_le' hfuel
  exact parseBpTail_stop hfollows hstops

theorem ReadsTo.step {f g : Nat → Except Stop (ParsedExpr × Parser)}
    {k : Nat → ParsedExpr × Parser → Except Stop (ParsedExpr × Parser)} {root root' : Quoted}
    {p' p'' : Parser} (hf : ReadsTo f root p')
    (hk : ∀ lhs : ParsedExpr, lhs.root = root → ReadsTo (fun fuel => k fuel (lhs, p')) root' p'')
    (hg : ∀ fuel, g (fuel + 1) = f fuel >>= k fuel) : ReadsTo g root' p'' := by
  obtain ⟨lhs, hroot, n, hn⟩ := hf
  obtain ⟨lhs', hroot', n', hn'⟩ := hk lhs hroot
  refine ⟨lhs', hroot', max n n' + 1, fun fuel hfuel => ?_⟩
  obtain ⟨fuel, rfl⟩ := Nat.exists_eq_add_of_le' (Nat.le_of_add_left_le hfuel)
  have hmax : max n n' ≤ fuel := Nat.le_of_succ_le_succ hfuel
  rw [hg, hn fuel (Nat.le_trans (Nat.le_max_left n n') hmax)]
  exact hn' fuel (Nat.le_trans (Nat.le_max_right n n') hmax)

theorem readsTo_parseBp {p' p'' : Parser} {operand root : Quoted}
    (hform : ReadsTo (fun fuel => parsePrefix grammar fuel { p with sawNoParensCall := false })
      operand p')
    (htail : ∀ lhs : ParsedExpr, lhs.root = operand →
      ReadsTo (fun fuel => parseBpTail grammar fuel lhs minBp p') root p'') :
    ReadsTo (fun fuel => parseBp grammar fuel minBp p) root p'' :=
  hform.step htail fun fuel => by rw [parseBp]

/-- The tokens of an expression in the place of an operand of the loop. -/
def Operand (grammar : Grammar) (e : Expr) (minBp : Nat) (next : Option Infix)
    (shown : List (Tok × Bool)) : Prop :=
  ∀ (toks rest : List Token) (p p' : Parser) (root : Quoted), shows toks = shown →
    p.rest = toks ++ rest → Follows rest next →
    (∀ lhs : ParsedExpr, lhs.root = e.quoted →
      ReadsTo (fun fuel => parseBpTail grammar fuel lhs minBp (p.resume rest)) root p') →
    ReadsTo (fun fuel => parseBp grammar fuel minBp p) root p'

/-- Parentheses stand for their content. -/
theorem operand_parens {e : Expr} {shown : Bool → List (Tok × Bool)}
    {wrap space : Bool} (hstart : ∃ tok shown', shown false = (tok, false) :: shown' ∧
      StartsOperand tok) (hinner : Operand grammar e 0 none (shown false))
    (hbare : wrap = false → Operand grammar e minBp next (shown space)) :
    Operand grammar e minBp next (Style.parens wrap shown space) := by
  cases wrap with
  | false => exact hbare rfl
  | true =>
    intro toks rest p p' root htoks hrest hfollows htail
    obtain ⟨lp, toks, rfl, hlp, -, htoks⟩ := exists_of_shows htoks
    obtain ⟨inner, closing, rfl, hin, hclosing⟩ := List.map_eq_append_iff.mp htoks
    obtain ⟨rp, closing, rfl, hrp, -, hnil⟩ := exists_of_shows hclosing
    obtain rfl := List.map_eq_nil_iff.mp hnil
    obtain ⟨token, rest', rfl, -⟩ := hfollows.cons
    have hp : p.rest = lp :: (inner ++ rp :: token :: rest') := by
      rw [hrest]
      simp
    obtain ⟨tok, shown', hshown, hstart⟩ := hstart
    obtain ⟨first, inner', rfl, rfl, -, -⟩ := exists_of_shows (Eq.trans hin hshown)
    let q : Parser := { p with
      rest := first :: inner' ++ rp :: token :: rest', allowTrailingDo := true
      sawNoParensCall := false }
    have hq : ReadsTo (fun fuel => parseBp grammar fuel 0 q) e.quoted
        (q.resume (rp :: token :: rest')) := by
      refine hinner (first :: inner') (rp :: token :: rest') q _ _ hin rfl (.close (.inl hrp)) ?_
      intro lhs hlhs
      rw [← hlhs]
      exact readsTo_stop (.close (.inl hrp)) nofun
    refine readsTo_parseBp (hq.step (k := fun _ r => do
      let (_, p) ← Parser.expect { r.2 with allowTrailingDo := p.allowTrailingDo } .rParen "`)`"
      return (.plain r.1.root, p)) (fun lhs hlhs => ?_) fun fuel => ?_) htail
    · refine ⟨.plain lhs.root, hlhs, 0, fun fuel _ => ?_⟩
      have hpeek : Parser.peek { q.resume (rp :: token :: rest') with
          allowTrailingDo := p.allowTrailingDo } = .rParen := (peek_cons rfl).trans hrp
      rw [Parser.expect, if_pos hpeek]
      rfl
    · have hadvance : Parser.advance { p with sawNoParensCall := false } =
          { p with
            rest := first :: inner' ++ rp :: token :: rest', sawNoParensCall := false } :=
        advance_cons hp
      rw [parsePrefix_lParen (p := { p with sawNoParensCall := false }) hp hlp, hadvance]
      dsimp only [Parser.withMatchedDoBoundary, Parser.withTrailingDo]
      rw [skipNewlines_cons (p := q) rfl hstart]
      cases parseBp grammar fuel 0 q <;> rfl

/-- The condition on an expression without parentheses around it. -/
def Bare (minBp : Nat) (next : Option Infix) (e : Expr) : Prop :=
  ∀ op l r, e = .operator op l r → minBp ≤ op.lbp ∧ Stops op.rbp next

theorem operand_int (value : Nat) (space : Bool) :
    Operand grammar (.int value) minBp next [(.int value, space)] := by
  intro toks rest p p' root htoks hrest hfollows htail
  obtain ⟨t, toks, rfl, ht, -, hnil⟩ := exists_of_shows htoks
  obtain rfl := List.map_eq_nil_iff.mp hnil
  obtain ⟨token, rest, rfl, -⟩ := hfollows.cons
  refine readsTo_parseBp ⟨.plain (.int value), rfl, 1, fun fuel hfuel => ?_⟩ htail
  obtain ⟨fuel, rfl⟩ := Nat.exists_eq_add_of_le' hfuel
  have hadvance : Parser.advance { p with sawNoParensCall := false } = p.resume (token :: rest) :=
    advance_cons hrest
  show parsePrefix grammar (fuel + 1) _ = _
  rw [parsePrefix_int (p := { p with sawNoParensCall := false }) hrest ht, hadvance]

theorem operand_ident (name : String) (space : Bool) :
    Operand grammar (.ident name) minBp next [(.ident name, space)] := by
  intro toks rest p p' root htoks hrest hfollows htail
  obtain ⟨t, toks, rfl, ht, -, hnil⟩ := exists_of_shows htoks
  obtain rfl := List.map_eq_nil_iff.mp hnil
  obtain ⟨token, rest, rfl, hcolon⟩ := hfollows.cons
  refine readsTo_parseBp ⟨.directName (.ofVariable name) name, rfl, 1, fun fuel hfuel => ?_⟩ htail
  obtain ⟨fuel, rfl⟩ := Nat.exists_eq_add_of_le' hfuel
  have hadvance : Parser.advance { p with sawNoParensCall := false } = p.resume (token :: rest) :=
    advance_cons hrest
  have hnext : (p.resume (token :: rest)).peek ≠ .colonColon := hcolon
  show parsePrefix grammar (fuel + 1) _ = _
  rw [parsePrefix_ident (p := { p with sawNoParensCall := false }) hrest ht (hadvance ▸ hnext),
    hadvance]

theorem advance_append {t : Token} {toks rest : List Token}
    (hfollows : Follows rest next) (h : p.rest = t :: (toks ++ rest)) :
    p.advance = { p with rest := toks ++ rest } := by
  obtain ⟨token, rest, rfl, -⟩ := hfollows.cons
  cases toks with
  | nil => exact advance_cons h
  | cons t' toks => exact advance_cons h

theorem operand_unary {op : Unary} {e : Expr} {shown : List (Tok × Bool)}
    (space : Bool) (he : Operand grammar e 120 next shown) :
    Operand grammar (.unary op e) minBp next ((op.tok, space) :: shown) := by
  intro toks rest p p' root htoks hrest hfollows htail
  obtain ⟨t, toks, rfl, ht, -, htoks⟩ := exists_of_shows htoks
  let q : Parser := { p with rest := toks ++ rest, sawNoParensCall := false }
  have hq : ReadsTo (fun fuel => parseBp grammar fuel 120 q) e.quoted (q.resume rest) := by
    refine he toks rest q _ _ htoks rfl hfollows fun lhs hlhs => ?_
    rw [← hlhs]
    exact readsTo_stop hfollows fun op _ => lbp_lt_unary op
  refine readsTo_parseBp (hq.step (k := fun _ r => .ok (.plain (.call op.name [r.1.root]), r.2))
    (fun lhs hlhs => ?_) fun fuel => ?_) htail
  · exact ⟨.plain (.call op.name [lhs.root]), by rw [hlhs]; rfl, 0, fun _ _ => rfl⟩
  · have hadvance : Parser.advance { p with sawNoParensCall := false } = q :=
      advance_append hfollows hrest
    rw [parsePrefix_unary (p := { p with sawNoParensCall := false }) hrest ht, hadvance]
    cases parseBp grammar fuel 120 q <;> rfl

/-- An expression printed in any style that covers the powers is an operand. -/
theorem operand_shown {style : Style} (hcovers : style.Covers .minimal) (e : Expr) :
    ∀ (minBp : Nat) (next : Option Infix) (space : Bool), Bare minBp next e →
      Operand grammar e minBp next (style.shown e space) := by
  induction e with
  | int value => exact fun minBp next space _ => operand_int value space
  | ident name => exact fun minBp next space _ => operand_ident name space
  | unary op e ih =>
    intro minBp next space _
    refine operand_unary space
      (operand_parens (shown_cons style e false) (ih _ _ _ ?_) fun hw => ?_)
    · exact fun op l r _ => ⟨Nat.zero_le _, nofun⟩
    · refine ih _ _ _ fun op' l r he => ?_
      subst he
      rw [hcovers.operand op _ rfl] at hw
      exact nomatch hw
  | operator op l r ihl ihr =>
    intro minBp next space hbare toks rest p p' root htoks hrest hfollows htail
    obtain ⟨hmin, hstops⟩ := hbare op l r rfl
    have hinner : ∀ e : Expr, Bare 0 none e := fun e op l r _ => ⟨Nat.zero_le _, nofun⟩
    have hleft : Operand grammar l minBp (some op)
        (Style.parens (style.left op l) (style.shown l) space) := by
      refine operand_parens (shown_cons style l false) (ihl _ _ _ (hinner l)) fun hw => ?_
      refine ihl _ _ _ fun op' l' r' he => ?_
      have hlt : op.lbp < op'.rbp := by
        by_contra hlt
        rw [hcovers.left op l (by rw [he, Style.minimal_left, decide_eq_false hlt]; rfl)] at hw
        exact nomatch hw
      refine ⟨Nat.le_trans hmin (lbp_le_of_lt_rbp op op' hlt), ?_⟩
      rintro _ ⟨⟩
      exact hlt
    have hright : Operand grammar r op.rbp next
        (Style.parens (style.right op r) (style.shown r) true) := by
      refine operand_parens (shown_cons style r false) (ihr _ _ _ (hinner r)) fun hw => ?_
      refine ihr _ _ _ fun op' l' r' he => ?_
      have hle : op.rbp ≤ op'.lbp := by
        by_contra hle
        rw [hcovers.right op r (by rw [he, Style.minimal_right, decide_eq_false hle]; rfl)] at hw
        exact nomatch hw
      exact ⟨hle, fun o ho =>
        Nat.lt_of_lt_of_le (hstops o ho) (rbp_le_of_rbp_le_lbp op op' hle)⟩
    -- the tokens of the three parts
    obtain ⟨ltoks, rtoks, rfl, htoks, hrtoks⟩ := List.map_eq_append_iff.mp htoks
    obtain ⟨ltoks, optoks, rfl, hltoks, hoptoks⟩ := List.map_eq_append_iff.mp htoks
    obtain ⟨tok, shown, hshown, hstart⟩ := parens_cons (style.right op r) (shown_cons style r true)
    obtain ⟨first, rtoks', rfl, rfl, hspace, -⟩ := exists_of_shows (Eq.trans hrtoks hshown)
    have hop : Follows (optoks ++ (first :: rtoks' ++ rest)) (some op) :=
      .operator op hoptoks hspace hstart
    refine hleft ltoks (optoks ++ (first :: rtoks' ++ rest)) p p' root hltoks ?_ hop fun lhs hlhs =>
      ?_
    · rw [hrest, List.append_assoc, List.append_assoc]
    have hr : ReadsTo (fun fuel => parseBp grammar fuel op.rbp
        (p.resume (first :: rtoks' ++ rest))) r.quoted (p.resume rest) := by
      refine hright (first :: rtoks') rest (p.resume (first :: rtoks' ++ rest)) _ _ hrtoks rfl
        hfollows fun rhs hrhs => ?_
      rw [← hrhs]
      exact readsTo_stop hfollows hstops
    refine hr.step (k := fun fuel rhs => parseBpTail grammar fuel
      (.plain (.call op.name [lhs.root, rhs.1.root])) minBp rhs.2) (fun rhs hrhs => ?_)
      fun fuel => ?_
    · exact htail _ (by rw [hlhs, hrhs]; rfl)
    · show parseBpTail grammar (fuel + 1) lhs minBp _ = _
      rw [parseBpTail_operator rfl hoptoks hspace hstart, if_neg (Nat.not_lt_of_le hmin)]
      rfl

/-! ## The main result -/

/-- With enough fuel the tokens of an expression in a style, followed by the end of the input, are
all read, and the result is the quoted source of the expression. -/
def Style.ReadBack (style : Style) (grammar : Grammar) (e : Expr) : Prop :=
  ∀ (toks : List Token) (last : Token) (p : Parser), shows toks = style.shown e false →
    last.tok = .eof → p.rest = toks ++ [last] →
    ReadsTo (fun fuel => parseExpr grammar fuel p) e.quoted (p.resume [last])

theorem Style.readBack {style : Style} (hcovers : style.Covers minimal) (grammar : Grammar)
    (e : Expr) : style.ReadBack grammar e := by
  intro toks last p htoks hlast hrest
  obtain ⟨tok, shown, hshown, hstart⟩ := shown_cons style e false
  obtain ⟨first, toks', rfl, rfl, -, -⟩ := exists_of_shows (htoks.trans hshown)
  have hfollows : Follows [last] none := .close (.inr hlast)
  show ReadsTo (fun fuel => parseBp grammar fuel 0 p.skipNewlines) _ _
  rw [skipNewlines_cons hrest hstart]
  refine operand_shown hcovers e 0 none false (fun op l r _ => ⟨Nat.zero_le _, nofun⟩)
    (first :: toks') [last] p _ _ htoks hrest hfollows fun lhs hlhs => ?_
  rw [← hlhs]
  exact readsTo_stop hfollows nofun

theorem Style.covers_self (style : Style) : style.Covers style :=
  ⟨fun _ _ h => h, fun _ _ h => h, fun _ _ h => h⟩

theorem Style.covers_full (style : Style) : full.Covers style :=
  ⟨fun _ _ _ => rfl, fun _ _ _ => rfl, fun _ _ _ => rfl⟩

/-- Printed with the parentheses that the powers ask for, an expression is read back as itself, and
so it is with parentheses around every operand. -/
theorem minimal_readBack (grammar : Grammar) (e : Expr) :
    Style.minimal.ReadBack grammar e ∧ Style.full.ReadBack grammar e :=
  ⟨Style.readBack (Style.covers_self _) grammar e, Style.readBack (Style.covers_full _) grammar e⟩

end Fz.Front
