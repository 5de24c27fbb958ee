import ByteCalc.Fault
import ByteCalc.Integer
import ByteCalc.Program
import ByteCalc.Token.Lexer

/-! # From tokens to programs

Statements are expressions separated by semicolons. Operators of one level of
precedence associate to the left. The parser takes one token at a time and
keeps what is unfinished on a list of frames, so the first token that cannot go
on is the one that is reported. Positions count the characters of the tokens as
they are shown, and a token that cannot be shown makes the parser crash.
-/

namespace ByteCalc

/-- Something unfinished around the place where the parser stands. -/
inductive Frame where
  /-- An open parenthesis. -/
  | group
  /-- A left operand and its operator, waiting for the right operand. -/
  | pending (lhs : Expr) (op : Operator)

/-- What may follow. Frames are listed from the inside out. -/
inductive Phase where
  /-- Between two statements. -/
  | between
  /-- An operand must follow. -/
  | operand (frames : List Frame)
  /-- An operand is complete. -/
  | operator (frames : List Frame) (e : Expr)

/-- Give the right operand to each pending operator that binds at least as tightly as `level`. -/
def Frame.close (level : Nat) : List Frame → Expr → List Frame × Expr
  | pending lhs op :: frames, rhs =>
    if level ≤ op.precedence then close level frames (lhs.join op rhs)
    else (pending lhs op :: frames, rhs)
  | frames, rhs => (frames, rhs)

@[simp] theorem Frame.close_nil (level : Nat) (e : Expr) : close level [] e = ([], e) := rfl

@[simp] theorem Frame.close_group (level : Nat) (frames : List Frame) (e : Expr) :
    close level (group :: frames) e = (group :: frames, e) := rfl

/-- The parser after some tokens: its position, the finished statements with the latest first, and
what may follow. -/
structure Parser where
  position : Nat
  finished : List Statement
  phase : Phase

namespace Parser

def start : Parser := ⟨0, [], .between⟩

/-- Add a finished statement. -/
def addStatement (p : Parser) (e : Expr) : Parser :=
  { p with finished := .ofExpr e :: p.finished, phase := .between }

/-- Take a token where an operand must stand. -/
def feedOperand (p : Parser) (span : Span) (frames : List Frame) : Token → Except Fault Parser
  | .openParen => .ok { p with phase := .operand (.group :: frames) }
  | .integer cs =>
    match Integer.read? cs with
    | some n => .ok { p with phase := .operator frames (.literal span n) }
    | none => .error (.literalRange span)
  | _ => .error (.expected .expression span)

/-- Take a token after a complete operand. -/
def feedOperator (p : Parser) (span : Span) (frames : List Frame) (e : Expr) :
    Token → Except Fault Parser
  | .operator op =>
    let (frames, lhs) := Frame.close op.precedence frames e
    .ok { p with phase := .operand (.pending lhs op :: frames) }
  | t =>
    match Frame.close 0 frames e, t with
    | (.group :: frames, e), .closeParen => .ok { p with phase := .operator frames e }
    | (.group :: _, _), _ => .error (.expected .closeParen span)
    | (_, e), .semicolon => .ok (p.addStatement e)
    | _, _ => .error (.expected .endOfStatement span)

/-- Take a token that stands at the given span. Blanks are passed over. -/
def feedAt (p : Parser) (span : Span) (t : Token) : Except Fault Parser :=
  if t.isBlank then .ok p
  else match p.phase with
    | .between => if t = .semicolon then .ok p else p.feedOperand span [] t
    | .operand frames => p.feedOperand span frames t
    | .operator frames e => p.feedOperator span frames e t

/-- Take the next token. -/
def feed (p : Parser) (t : Token) : Except Fault Parser :=
  let stop := p.position + t.width
  { p with position := stop }.feedAt ⟨p.position, stop⟩ t

/-- Take tokens one after the other, up to the first that is refused. Each of them is shown first.
Gives nothing if the parser crashes. -/
def feedAll (p : Parser) : List Token → Option (Except Fault Parser)
  | [] => some (.ok p)
  | t :: ts =>
    match t.chars?, p.feed t with
    | none, _ => none
    | some _, .ok p => p.feedAll ts
    | some _, .error f => some (.error f)

/-- The program, if the tokens may end at the given span. -/
def finishAt (p : Parser) (span : Span) : Except Fault Program :=
  match p.phase with
  | .between => .ok ⟨p.finished.reverse⟩
  | .operand _ => .error (.expected .expression span)
  | .operator frames e =>
    match Frame.close 0 frames e with
    | (.group :: _, _) => .error (.expected .closeParen span)
    | (_, e) => .ok ⟨(p.addStatement e).finished.reverse⟩

/-- The program, if the tokens may end here. -/
def finish (p : Parser) : Except Fault Program := p.finishAt ⟨p.position, p.position⟩

end Parser

/-- Read a program from tokens. Gives nothing if the parser crashes. -/
def parseTokens (ts : List Token) : Option (Except Fault Program) :=
  (Parser.start.feedAll ts).map fun result => do (← result).finish

/-- Read a program from source text. Gives nothing if the parser crashes. -/
def parse (source : String) : Option (Except Fault Program) := parseTokens (lex source)

end ByteCalc
