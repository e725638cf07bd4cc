import Mathlib.Tactic.Common

/-!
# Operator expressions

The front door reads operator expressions by binding powers.  `parseBp` reads one prefix form and
then, in `parseBpTail`, extends it to the right by calls, accesses and every infix operator whose
left power is not below the minimum.  An identifier followed by a space and something that can start
an argument is a call without parentheses, so the parser looks at the spaces before tokens.

The forms with a grammar of their own (argument lists, blocks, literals with delimiters, control
forms, type fragments) are the fields of a `Grammar`; what holds for every grammar holds for the
front door's.  Spans and metadata are left out, apart from the positions that decide whether
`name::name` is one symbol.  The recursion takes fuel, and running out of it is no error of the
parser (`Stop`).
-/

namespace Fz.Front

inductive Tok where
  | int (value : Int) | float (bits : UInt64) | binary (bytes : List UInt8) | atom (name : String)
  | true | false | nil
  | ident (name : String) | upper (name : String) | kwKey (name : String)
  | fn | externKw | defmacro | defmodule | defstruct | defprotocol | defimpl | alias | importKw
  | require | do | end | if | else | case | cond | when | with | quote | unquote | type | in | not
  | and | or | receive | after
  | lParen | rParen | lBrack | rBrack | lBrace | rBrace | lBitstr | rBitstr | percentLBrace
  | sigil (name : String)
  | comma | dot | ellipsis | semi | colon | colonColon | arrow | fatArrow | lArrow | pipe | bar
  | caret | underscore
  | eq | eqEq | notEq | eqEqEq | notEqEq | lt | ltEq | gt | gtEq | plus | minus | star | slash
  | percent | at | amp
  | plusPlus | minusMinus | concat | dotDot | slashSlash
  | newline | eof
  deriving DecidableEq

structure Token where
  tok : Tok
  start : Nat
  stop : Nat
  /-- There is a space, or a comment, right before the token on its line. -/
  spaceBefore : Bool

/-- Quoted source. -/
inductive Quoted where
  | int (value : Int)
  | float (bits : UInt64)
  | bitstring (bytes : List UInt8)
  | bool (value : Bool)
  | nil
  | atom (name : String)
  | list (items : List Quoted)
  | pair (first second : Quoted)
  | node (head tail : Quoted)

namespace Quoted

def ofVariable (name : String) : Quoted := .node (.atom name) .nil

def call (name : String) (args : List Quoted) : Quoted := .node (.atom name) (.list args)

def callCallee (callee : Quoted) (args : List Quoted) : Quoted := .node callee (.list args)

def keyword (key : String) (value : Quoted) : Quoted := .pair (.atom key) value

end Quoted

structure ParsedExpr where
  root : Quoted
  callHead : Option String
  callableHead : Bool

namespace ParsedExpr

def plain (root : Quoted) : ParsedExpr := ⟨root, none, false⟩

def directName (root : Quoted) (name : String) : ParsedExpr := ⟨root, some name, true⟩

def callableCallee (root : Quoted) : ParsedExpr := ⟨root, none, true⟩

end ParsedExpr

structure FrontDoorError where
  message : String
  /-- The token that the message shows. -/
  found : Option Tok

/-- Why a parse has no result. -/
inductive Stop where
  | error (error : FrontDoorError)
  | outOfFuel

/-- The cursor, as the tokens from it on, and the modes of the parser. -/
structure Parser where
  rest : List Token
  allowTrailingDo : Bool
  allowExternSymbolFolding : Bool
  emitTypePayloads : Bool
  commaBound : Bool
  sawNoParensCall : Bool

def err {α : Type} (message : String) (found : Option Tok) : Except Stop α :=
  .error (.error ⟨message, found⟩)

namespace Parser

def peekAt (p : Parser) (off : Nat) : Tok := (p.rest[off]?.map Token.tok).getD .eof

def peek (p : Parser) : Tok := p.peekAt 0

def spaceBeforeAt (p : Parser) (off : Nat) : Bool := (p.rest[off]?.map Token.spaceBefore).getD false

/-- The cursor does not move past the last token. -/
def advance (p : Parser) : Parser :=
  match p.rest with
  | _ :: token :: rest => { p with rest := token :: rest }
  | _ => p

def skipNewlines (p : Parser) : Parser :=
  { p with rest := p.rest.dropWhile fun token => token.tok = .newline }

def expect (p : Parser) (expected : Tok) (label : String) : Except Stop (Unit × Parser) :=
  if p.peek = expected then .ok ((), p.advance)
  else err ("expected " ++ label ++ ", got") p.peek

/-- Run a parser with the trailing `do` mode set, and put the mode back. -/
def withTrailingDo {α : Type} (allow : Bool) (f : Parser → Except Stop (α × Parser)) (p : Parser) :
    Except Stop (α × Parser) := do
  let (a, p') ← f { p with allowTrailingDo := allow }
  return (a, { p' with allowTrailingDo := p.allowTrailingDo })

def withTrailingDoSuppressed {α : Type} (f : Parser → Except Stop (α × Parser)) (p : Parser) :
    Except Stop (α × Parser) :=
  p.withTrailingDo false f

def withMatchedDoBoundary {α : Type} (f : Parser → Except Stop (α × Parser)) (p : Parser) :
    Except Stop (α × Parser) :=
  p.withTrailingDo true f

def startsNoParensArg (p : Parser) : Bool :=
  p.spaceBeforeAt 0 &&
    match p.peek with
    | .int _ | .float _ | .binary _ | .atom _ | .true | .false | .nil | .ident _ | .upper _
    | .lParen | .lBrace | .percentLBrace | .lBitstr | .fn | .kwKey _ | .amp => true
    | .minus | .plus => !p.spaceBeforeAt 1
    | _ => false

end Parser

def infixBp : Tok → Option (Nat × Nat × String)
  | .when => some (4, 4, "when")
  | .or => some (20, 21, "or")
  | .and => some (30, 31, "and")
  | .eqEq => some (40, 41, "==")
  | .notEq => some (40, 41, "!=")
  | .eqEqEq => some (40, 41, "===")
  | .notEqEq => some (40, 41, "!==")
  | .lt => some (50, 51, "<")
  | .ltEq => some (50, 51, "<=")
  | .gt => some (50, 51, ">")
  | .gtEq => some (50, 51, ">=")
  | .pipe => some (60, 61, "|>")
  | .in => some (70, 71, "in")
  | .colonColon => some (80, 81, "::")
  | .slashSlash => some (81, 80, "//")
  | .plusPlus => some (91, 90, "++")
  | .minusMinus => some (91, 90, "--")
  | .concat => some (91, 90, "<>")
  | .dotDot => some (91, 90, "..")
  | .plus => some (100, 101, "+")
  | .minus => some (100, 101, "-")
  | .star => some (110, 111, "*")
  | .slash => some (110, 111, "/")
  | .percent => some (110, 111, "%")
  | _ => none

/-- The forms with a grammar of their own. -/
structure Grammar where
  parenCallArgs : Parser → Except Stop (List Quoted × Parser)
  noParensArgs : Parser → Except Stop (List Quoted × Parser)
  blockUntilEnd : Parser → Except Stop (Quoted × Parser)
  keywordListExpr : Parser → Except Stop (Quoted × Parser)
  /-- The tokens of a type after `::`, encoded. -/
  typeFragment : Nat → Parser → Except Stop (Quoted × Parser)
  /-- What follows a token that starts a literal with delimiters, an alias or a control form. -/
  form : Tok → Parser → Except Stop (ParsedExpr × Parser)

variable (grammar : Grammar)

def attachTrailingDo (args : List Quoted) (p : Parser) : Except Stop (List Quoted × Parser) :=
  if p.allowTrailingDo && p.peek = .do then do
    let (body, p) ← grammar.blockUntilEnd p.advance.skipNewlines
    let (_, p) ← p.expect .end "`end`"
    return (args ++ [.list [.keyword "do" body]], p)
  else .ok (args, p)

/-- The call of an expression, by its name if it is one. -/
def callOf (lhs : ParsedExpr) (args : List Quoted) : ParsedExpr :=
  .plain (match lhs.callHead with
    | some name => .call name args
    | none => .callCallee lhs.root args)

def finishCall (lhs : ParsedExpr) (p : Parser) : Except Stop (ParsedExpr × Parser) := do
  let (_, p) ← p.expect .lParen "`(`"
  let (args, p) ← p.withMatchedDoBoundary grammar.parenCallArgs
  let (_, p) ← p.expect .rParen "`)`"
  let (args, p) ← attachTrailingDo grammar args p
  return (callOf lhs args, p)

def finishClosureCall (lhs : ParsedExpr) (p : Parser) : Except Stop (ParsedExpr × Parser) := do
  let (_, p) ← p.expect .dot "`.`"
  let (_, p) ← p.skipNewlines.expect .lParen "`(`"
  let (args, p) ← p.withMatchedDoBoundary grammar.parenCallArgs
  let (_, p) ← p.expect .rParen "`)`"
  let (args, p) ← attachTrailingDo grammar args p
  return (.plain (.callCallee (.node (.atom ".") (.list [lhs.root])) args), p)

def finishRemoteTarget (lhs : ParsedExpr) (p : Parser) : Except Stop (ParsedExpr × Parser) := do
  let (_, p) ← p.expect .dot "`.`"
  let p := p.skipNewlines
  let target (field : String) : ParsedExpr :=
    .callableCallee (.node (.atom ".") (.list [lhs.root, .atom field]))
  match p.peek with
  | .ident name => return (target name, p.advance)
  | .upper name => return (target name, p.advance)
  | other => err "expected name after `.`, got" other

def finishBracketAccess (parseExpr : Parser → Except Stop (ParsedExpr × Parser))
    (lhs : ParsedExpr) (p : Parser) :
    Except Stop (ParsedExpr × Parser) := do
  let (_, p) ← p.expect .lBrack "`[`"
  let (key, p) ← p.withMatchedDoBoundary parseExpr
  let (_, p) ← p.expect .rBrack "`]`"
  let access := Quoted.call "__aliases__" [.atom "Access"]
  return (.plain (.callCallee (.node (.atom ".") (.list [access, .atom "get"]))
    [lhs.root, key.root]), p)

/-- A call without parentheses, with the arguments that follow. -/
def finishNoParensCall (lhs : ParsedExpr) (args : List Quoted) (p : Parser) :
    Except Stop (ParsedExpr × Parser) := do
  let (args, p) ← attachTrailingDo grammar args p
  return (callOf lhs args, { p with sawNoParensCall := Bool.true })

mutual

def parseBp : Nat → Nat → Parser → Except Stop (ParsedExpr × Parser)
  | 0, _, _ => .error .outOfFuel
  | fuel + 1, minBp, p => do
    let (lhs, p) ← parsePrefix fuel { p with sawNoParensCall := Bool.false }
    parseBpTail fuel lhs minBp p

def parseBpTail : Nat → ParsedExpr → Nat → Parser → Except Stop (ParsedExpr × Parser)
  | 0, _, _, _ => .error .outOfFuel
  | fuel + 1, lhs, minBp, p =>
    if p.peek = .lParen ∧ p.spaceBeforeAt 0 = Bool.false then do
      let (lhs, p) ← finishCall grammar lhs p
      parseBpTail fuel lhs minBp p
    else if p.peek = .dot ∧ p.peekAt 1 = .lParen then do
      let (lhs, p) ← finishClosureCall grammar lhs p
      parseBpTail fuel lhs minBp p
    else if p.peek = .dot then do
      let (lhs, p) ← finishRemoteTarget lhs p
      parseBpTail fuel lhs minBp p
    else if p.peek = .lBrack then do
      let (lhs, p) ← finishBracketAccess (fun p => parseBp fuel 0 p.skipNewlines) lhs p
      parseBpTail fuel lhs minBp p
    else if p.peek = .eq then
      if 5 < minBp then .ok (lhs, p)
      else do
        let (rhs, p) ← parseBp fuel 5 p.advance.skipNewlines
        parseBpTail fuel (.plain (.call "=" [lhs.root, rhs.root])) minBp p
    else if p.peek = .not ∧ p.peekAt 1 = .in then
      if 70 < minBp then .ok (lhs, p)
      else do
        let (rhs, p) ← parseBp fuel 71 p.advance.advance.skipNewlines
        parseBpTail fuel (.plain (.call "not in" [lhs.root, rhs.root])) minBp p
    else if lhs.callableHead && p.startsNoParensArg then do
      let (args, p) ← p.withTrailingDoSuppressed grammar.noParensArgs
      let (lhs, p) ← finishNoParensCall grammar lhs args p
      parseBpTail fuel lhs minBp p
    else if lhs.callableHead && p.allowTrailingDo && p.peek = .do then do
      let (lhs, p) ← finishNoParensCall grammar lhs [] p
      parseBpTail fuel lhs minBp p
    else
      match infixBp p.peek with
      | none => .ok (lhs, p)
      | some (lbp, rbp, op) =>
        if lbp < minBp then .ok (lhs, p)
        else if p.emitTypePayloads && p.peek = .colonColon then do
          let (rhs, p) ← grammar.typeFragment rbp p.advance
          parseBpTail fuel (.plain (.call "::" [lhs.root, rhs])) minBp p
        else do
          let p := p.advance.skipNewlines
          let (rhs, p) ←
            match p.peek with
            | .kwKey _ =>
              if op = "when" then do
                let (root, p) ← grammar.keywordListExpr p
                return (.plain root, p)
              else parseBp fuel rbp p
            | _ => parseBp fuel rbp p
          parseBpTail fuel (.plain (.call op [lhs.root, rhs.root])) minBp p

def parsePrefix : Nat → Parser → Except Stop (ParsedExpr × Parser)
  | 0, _ => .error .outOfFuel
  | fuel + 1, p =>
    match p.peek with
    | .int value => .ok (.plain (.int value), p.advance)
    | .float bits => .ok (.plain (.float bits), p.advance)
    | .binary bytes => .ok (.plain (.bitstring bytes), p.advance)
    | .true => .ok (.plain (.bool Bool.true), p.advance)
    | .false => .ok (.plain (.bool Bool.false), p.advance)
    | .nil => .ok (.plain .nil, p.advance)
    | .atom name => .ok (.plain (.atom name), p.advance)
    | .underscore => .ok (.plain (.ofVariable "_"), p.advance)
    | .ident name =>
      let stop := (p.rest[0]?.map Token.stop).getD 0
      let p := p.advance
      -- `lib::symbol` without spaces is one name
      if p.allowExternSymbolFolding && p.peek = .colonColon &&
          stop = (p.rest[0]?.map Token.start).getD 0 then
        let p := p.advance
        match p.peek with
        | .ident second =>
          let name := name ++ "::" ++ second
          .ok (.directName (.ofVariable name) name, p.advance)
        | other => err ("expected name after `" ++ name ++ "::`, got") other
      else .ok (.directName (.ofVariable name) name, p)
    | .lParen => do
      let (inner, p) ← p.advance.withMatchedDoBoundary fun p => parseBp fuel 0 p.skipNewlines
      let (_, p) ← p.expect .rParen "`)`"
      return (.plain inner.root, p)
    | .minus => do
      let (inner, p) ← parseBp fuel 120 p.advance
      return (.plain (.call "-" [inner.root]), p)
    | .not => do
      let (inner, p) ← parseBp fuel 120 p.advance
      return (.plain (.call "not" [inner.root]), p)
    | .upper name => grammar.form (.upper name) p.advance
    | .amp => grammar.form .amp p.advance
    | .caret => grammar.form .caret p.advance
    | .lBrack => p.advance.withMatchedDoBoundary (grammar.form .lBrack)
    | .lBrace => p.advance.withMatchedDoBoundary (grammar.form .lBrace)
    | .percentLBrace => p.advance.withMatchedDoBoundary (grammar.form .percentLBrace)
    | .percent => p.advance.withMatchedDoBoundary (grammar.form .percent)
    | .lBitstr => p.advance.withMatchedDoBoundary (grammar.form .lBitstr)
    | .quote => p.advance.withMatchedDoBoundary (grammar.form .quote)
    | .unquote => p.advance.withMatchedDoBoundary (grammar.form .unquote)
    | .if => p.advance.withMatchedDoBoundary (grammar.form .if)
    | .cond => p.advance.withMatchedDoBoundary (grammar.form .cond)
    | .receive => p.advance.withMatchedDoBoundary (grammar.form .receive)
    | .case => p.advance.withMatchedDoBoundary (grammar.form .case)
    | .with => p.advance.withMatchedDoBoundary (grammar.form .with)
    | .fn => p.advance.withMatchedDoBoundary (grammar.form .fn)
    | other => err "unsupported expression prefix in compiler2 front door:" other

end

def parseExpr (fuel : Nat) (p : Parser) : Except Stop (ParsedExpr × Parser) :=
  parseBp grammar fuel 0 p.skipNewlines

end Fz.Front
