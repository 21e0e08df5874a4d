/-
Reading with a cursor. The rules of the grammar hand on the tokens they leave;
here all tokens stay where they are, and a cursor is moved over them. Tokens are
looked at by their place, and there is nothing to see outside the list: a walk
that looks there has no result. Nor has one whose rules call each other more
than `depth` deep, so one that would never end has none at any depth.

The rules are those of the grammar, each once more as a walk. The cursor keeps
what was logged, the trail of all places it stood at or looked at, and the calls
of the rule for declarations.
-/
import Lox.Grammar.Program

namespace Lox

/-- A call of the rule for declarations, by the places of the cursor when it
began and when it returned, and what it yielded. -/
structure Walk.Call where
  start : Nat
  finish : Nat
  statement? : Option Stmt

/-- A place among tokens, and what happened on the way there. -/
structure Cursor where
  tokens : List Token
  current : Nat
  log : List Record
  /-- The places it stood at or looked at, in order. -/
  trail : List Nat
  /-- The calls that have returned, in order. -/
  calls : List Walk.Call

/-- A walk ends with a value or a fault, or has no result. -/
abbrev Walk := ExceptT SyntaxFault (StateT Cursor Option)

namespace Walk

/-! ## Steps -/

/-- The token at a place, if there is one. -/
def look (place : Nat) : Walk Token := fun c =>
  c.tokens[place]?.map fun t => (.ok t, { c with trail := c.trail ++ [place] })

/-- The token at the cursor. -/
def peek : Walk Token := do look (← get).current

/-- The token before the cursor, or the first one if there is none before. -/
def previous : Walk Token := do look ((← get).current - 1)

/-- Whether the cursor is at an end mark. -/
def isAtEnd : Walk Bool := do return (← peek).kind == .eof

/-- Moves the cursor on by one token. -/
def move : Walk Unit := modify fun c =>
  { c with current := c.current + 1, trail := c.trail ++ [c.current + 1] }

/-- Moves on, but not over an end mark, and gives the token moved over. -/
def advance : Walk Token := do
  if ← isAtEnd then previous
  else
    move
    previous

/-- Whether a token of a kind is at the cursor. -/
def check (kind : Token.Kind) : Walk Bool := do
  if ← isAtEnd then return false
  else return (← peek).kind == kind

/-- Moves over a token of one of these kinds, if there is one. -/
def taking : List Token.Kind → Walk Bool
  | [] => return false
  | kind :: kinds => do
    if ← check kind then
      let _ ← advance
      return true
    else taking kinds

/-- Adds a record to the log. -/
def record (r : Record) : Walk Unit := modify fun c => { c with log := c.log ++ [r] }

/-- Reports a fault at a token. -/
def report (t : Token) (cause : SyntaxCause) : Walk SyntaxFault := do
  record (.reported (SyntaxFault.ofToken t cause).diagnostic)
  return .ofToken t cause

/-- Moves over a token of a kind, or fails at the one found in its place. -/
def consume (kind : Token.Kind) (message : String) : Walk Token := do
  if ← check kind then advance
  else throw (← report (← peek) (.expected message))

/-- Keeps a call that began at `start` and returns here. -/
def keep (start : Nat) (s? : Option Stmt) : Walk Unit := modify fun c =>
  { c with calls := c.calls ++ [⟨start, c.current, s?⟩] }

/-- No result: the rules call each other too deep. -/
def tooDeep {α : Type} : Walk α := fun _ => none

/-! ## Expressions -/

mutual

/-- What stands before an equals sign is read first, and then has to be a
name. -/
def assignment : (depth : Nat) → Walk Expr
  | 0 => tooDeep
  | depth + 1 => do
    let target ← chain depth Level.all
    if ← taking [.equal] then
      let equals ← previous
      let value ← assignment depth
      match target with
      | .var name => return .assign name value
      | target =>
        let _ ← report equals .invalidAssignmentTarget
        return target
    else return target

/-- Operands of the tighter levels, joined by operators of the first level. -/
def chain : (depth : Nat) → List Level → Walk Expr
  | 0, _ => tooDeep
  | depth + 1, [] => unary depth
  | depth + 1, level :: tighter => do
    let left ← chain depth tighter
    chainRest depth level tighter left

/-- What follows the operands joined so far. -/
def chainRest : (depth : Nat) → Level → List Level → Expr → Walk Expr
  | 0, _, _, _ => tooDeep
  | depth + 1, level, tighter, left => do
    if ← taking level.operators then
      let operator ← previous
      let right ← chain depth tighter
      chainRest depth level tighter (level.join left operator right)
    else return left

/-- Signs and what they stand before. -/
def unary : (depth : Nat) → Walk Expr
  | 0 => tooDeep
  | depth + 1 => do
    if ← taking [.bang, .minus] then
      let operator ← previous
      let operand ← unary depth
      return .unary operator operand
    else primary depth

/-- A literal, a name or an expression in parentheses. -/
def primary : (depth : Nat) → Walk Expr
  | 0 => tooDeep
  | depth + 1 => do
    let t ← peek
    if t.kind.isAtom then
      let t ← advance
      match Expr.ofToken? t with
      | some e => return e
      | none =>
        record (.notAnExpression t)
        throw (← report (← previous) .expectedExpression)
    else if t.kind = .leftParen then
      let _ ← advance
      let inner ← assignment depth
      let _ ← consume .rightParen "Expect ')' after expression."
      return .grouping inner
    else throw (← report (← peek) .expectedExpression)

end

/-! ## Statements -/

/-- Moves on to what may begin a statement, or to what follows a semicolon. -/
def skip : (depth : Nat) → Walk Unit
  | 0 => tooDeep
  | depth + 1 => do
    if ← isAtEnd then return ()
    else if (← previous).kind = .semicolon then return ()
    else if (← peek).kind.startsStatement then return ()
    else
      let _ ← advance
      skip depth

/-- Resumes after a fault in the declaration that began at `start`. -/
def synchronize (depth start : Nat) (keepFailing : Bool) : Walk Unit := do
  if (← get).current = start ∨ keepFailing = false then
    let _ ← advance
    skip depth
  else skip depth

/-- Leaves behind the fault of such a declaration. -/
def abandon (depth start : Nat) (fault : SyntaxFault) : Walk (Option Stmt) := do
  record (.recovering fault)
  synchronize depth start (fault.cause != .expectedExpression)
  return none

/-- An expression and the semicolon behind it. -/
def closed (depth : Nat) (message : String) : Walk Expr := do
  let e ← assignment depth
  let _ ← consume .semicolon message
  return e

/-- The value after an equals sign, if there is one. -/
def initializer (depth : Nat) : Walk (Option Expr) := do
  if ← taking [.equal] then return some (← assignment depth)
  else return none

/-- A variable declaration, `var` already moved over. -/
def variableDeclaration (depth : Nat) : Walk Stmt := do
  let name ← consume .identifier "Expect variable name."
  let initializer? ← initializer depth
  let _ ← consume .semicolon "Expect ';' after variable declaration."
  return .varDecl name initializer?

/-- Whether a closing brace ends the block here, if in one. -/
def endsBlock (inBlock : Bool) : Walk Bool := if inBlock then check .rightBrace else return false

mutual

/-- A statement, told by the token it begins with. -/
def statement : (depth : Nat) → Walk Stmt
  | 0 => tooDeep
  | depth + 1 => do
    if ← taking [.kwIf] then
      let _ ← consume .leftParen "Expect '(' after 'if'."
      let condition ← assignment depth
      let _ ← consume .rightParen "Expect ')' after if condition."
      let thenBranch ← statement depth
      if ← taking [.kwElse] then return .ifElse condition thenBranch (← statement depth)
      else return .ifThen condition thenBranch
    else if ← taking [.kwPrint] then return .print (← closed depth "Expect ';' after value.")
    else if ← taking [.leftBrace] then
      let body ← declarations depth true
      let _ ← consume .rightBrace "Expect '\x7d' after block."
      return .block body
    else return .expression (← closed depth "Expect ';' after expression.")

/-- A declaration never fails: its fault is left behind. The call is kept when
it returns, whether it yields a statement or not. -/
def declaration : (depth : Nat) → Walk (Option Stmt)
  | 0 => tooDeep
  | depth + 1 => do
    let start := (← get).current
    let s? ← tryCatch (do
      if ← taking [.kwVar] then return some (← variableDeclaration depth)
      else return some (← statement depth)) fun fault => abandon depth start fault
    keep start s?
    return s?

/-- Declarations to the end, or up to a closing brace if in a block. -/
def declarations : (depth : Nat) → (inBlock : Bool) → Walk (List Stmt)
  | 0, _ => tooDeep
  | depth + 1, inBlock => do
    if ← endsBlock inBlock then return []
    else if ← isAtEnd then return []
    else
      let s? ← declaration depth
      let ss ← declarations depth inBlock
      return s?.toList ++ ss

end

/-- All statements, with the number of them logged at the end. -/
def program (depth : Nat) : Walk (List Stmt) := do
  let ss ← declarations depth false
  record (.parsed ss.length)
  return ss

end Walk

/-- The tokens, with an end mark on the line of the last one if that is none. -/
def closedTokens (tokens : List Token) : List Token :=
  match tokens.getLast? with
  | some last => if last.kind = .eof then tokens else tokens ++ [.eof last.line]
  | none => [.eof 1]

/-- The cursor at the first of these tokens. -/
def Cursor.start (tokens : List Token) : Cursor := ⟨closedTokens tokens, 0, [], [], []⟩

end Lox
