import SmalltalkJvm.Source.Span

/-! # Script trees

A script is a sequence of statements, each an expression or an answer. Expressions send messages:
unary ones, binary ones with an argument, and keyword ones whose selector is put together from the
keywords of their parts. A cascade sends several messages to one receiver. Blocks are sequences of
their own, with parameters.

Every node carries the span where it stands; a unary message has only that of its selector.
-/

namespace SmalltalkJvm

structure Ident where
  name : String
  span : Span
  deriving DecidableEq, Repr, Inhabited

inductive LiteralKind where
  | number | character | string | symbol | array
  deriving DecidableEq, Repr, Inhabited

/-- The reserved names of a script. -/
inductive Pseudo where
  | self | super | nil | true | false
  deriving DecidableEq, Repr, Inhabited

mutual

inductive Expr where
  | literal (kind : LiteralKind) (text : String) (span : Span)
  | pseudo (word : Pseudo) (span : Span)
  | reference (name : String) (span : Span)
  | block (parameters : List Ident) (body : Sequence) (span : Span)
  | send (receiver : Expr) (message : Message) (span : Span)
  | cascade (receiver : Expr) (messages : List Message) (span : Span)
  | assign (target : Ident) (value : Expr) (span : Span)
  | paren (inner : Expr) (span : Span)
  | primitive (number : String) (span : Span)

inductive Message where
  | unary (selector : Ident)
  | binary (selector : Ident) (argument : Expr) (span : Span)
  | keyword (parts : List KeywordPart) (span : Span)

structure KeywordPart where
  keyword : Ident
  argument : Expr

inductive Statement where
  | expression (value : Expr)
  | answer (value : Expr) (span : Span)

structure Sequence where
  temporaries : List Ident
  statements : List Statement
  span : Span

end

deriving instance Repr, Inhabited for Expr, Message, KeywordPart, Statement, Sequence

structure Script where
  body : Sequence
  span : Span
  deriving Repr, Inhabited

namespace Expr

def span : Expr → Span
  | literal _ _ span | pseudo _ span | reference _ span | block _ _ span | send _ _ span
  | cascade _ _ span | assign _ _ span | paren _ span | primitive _ span => span

/-- The name, if the expression is nothing but a reference. -/
def reference? : Expr → Option String
  | reference name _ => some name
  | _ => none

/-- The text, if the expression is nothing but a symbol. -/
def symbol? : Expr → Option String
  | literal .symbol text _ => some text
  | _ => none

end Expr

/-- The selector that the keywords of some parts make up. -/
def selectorOf (parts : List KeywordPart) : String :=
  parts.foldl (fun selector p => selector ++ p.keyword.name) ""

namespace Message

def selector : Message → String
  | unary selector => selector.name
  | binary selector _ _ => selector.name
  | keyword parts _ => selectorOf parts

def arity : Message → Nat
  | unary _ => 0
  | binary .. => 1
  | keyword parts _ => parts.length

def span : Message → Span
  | unary selector => selector.span
  | binary _ _ span => span
  | keyword _ span => span

def isKeyword : Message → Bool
  | keyword .. => true
  | _ => false

end Message

namespace Statement

def span : Statement → Span
  | expression value => value.span
  | answer _ span => span

def isAnswer : Statement → Bool
  | answer .. => true
  | expression _ => false

end Statement

namespace Sequence

def empty (span : Span) : Sequence := ⟨[], [], span⟩

/-- Whether a statement of the sequence itself is an answer. -/
def answers (s : Sequence) : Bool := s.statements.any Statement.isAnswer

end Sequence
end SmalltalkJvm
