import SmalltalkJvm.Proofs.Machine
import SmalltalkJvm.Proofs.Outline

/-! # The meaning of a script

What the sequence of a method does, in terms of the calls that it makes into the support library.
A send evaluates its receiver, then its arguments from left to right, and then performs its
selector. A cascade sends all its messages to one value. An assignment has the value that it stores.
Of the statements only the last one's value counts.

An answer leaves the method at once, and so does an exception that nothing catches. The answers of
blocks come as exceptions of their marker classes. They are caught by the innermost keyword message
around the block, or by its statement if there is none.
-/

namespace SmalltalkJvm

open Compile

inductive Exit (V : Type) where
  | answered (value : V)
  | thrown (exception : V)

abbrev Eval (V W : Type) := EStateM (Exit V) W

/-- The values that a method is run with: those of its local variables 1 and 2. -/
structure Activation (V : Type) where
  self : V
  context : V

section

variable {V W : Type} (env : Env) (rt : Runtime V W) (act : Activation V)

def ofCall {α : Type} (action : EStateM V W α) : Eval V W α := fun world =>
  match action world with
  | .ok value world => .ok value world
  | .error exception world => .error (.thrown exception) world

/-- Answers with what the exception of a marker class carries. -/
def answerOf {α : Type} (marker : String) (exception : V) : Eval V W α := do
  let value ← ofCall (rt.call .invokevirtual (Draft.answerMethod env marker) [exception])
  throw (.answered value)

/-- Catches the answers of the blocks whose markers are given. -/
def catchAnswers {α : Type} (markers : List String) (body : Eval V W α) : Eval V W α := fun world =>
  match body world with
  | .error (.thrown exception) world =>
    match markers.find? (rt.isInstance · exception) with
    | some marker => answerOf env rt marker exception world
    | none => .error (.thrown exception) world
  | result => result

namespace Runtime

def onObject (name descriptor : String) (receiver : V) (arguments : List V) : Eval V W V :=
  ofCall (rt.call .invokevirtual ⟨env.library.object, name, descriptor⟩ (receiver :: arguments))

def onContext (name descriptor : String) (arguments : List V) : Eval V W V :=
  ofCall (rt.call .invokevirtual ⟨env.library.context, name, descriptor⟩ (act.context :: arguments))

def slot (n : Nat) : V := rt.number (Int32.ofNat n)

def fixed (accessor : String) : Eval V W V :=
  rt.onObject env accessor s!"(){env.library.objectType}" act.self []

def pseudo : Pseudo → Eval V W V
  | .self | .super => pure act.self
  | .nil => rt.fixed env act "referenceNil"
  | .true => rt.fixed env act "referenceTrue"
  | .false => rt.fixed env act "referenceFalse"

def literal (kind : LiteralKind) (text : String) : Eval V W V :=
  let factory := match kind with
    | .number => "smalltalkNumber"
    | .character => "smalltalkCharacter"
    | .string => "smalltalkString"
    | .symbol => "smalltalkSymbol"
    | .array => "smalltalkArray"
  rt.onObject env factory s!"(Ljava/lang/Object;){env.library.objectType}" act.self [rt.text text]

def reference (name : String) : Variable → Eval V W V
  | .temporary n =>
    rt.onContext env act "temporaryAt" s!"(I){env.library.objectType}" [rt.slot n]
  | .argument n => rt.onContext env act "argumentAt" s!"(I){env.library.objectType}" [rt.slot n]
  | .global =>
    rt.onObject env "reference" s!"(Ljava/lang/String;){env.library.objectType}" act.self
      [rt.text name]

def store (n : Nat) (value : V) : Eval V W V :=
  ofCall (rt.call .invokestatic
    ⟨env.library.context, "temporaryPutAt",
      s!"({env.library.objectType}I{env.library.contextType})V"⟩
    [value, rt.slot n, act.context])

def initTemporaries (count : Nat) : Eval V W V :=
  rt.onContext env act "initTemporaries" "(I)V" [rt.slot count]

/-- Performs a selector; a message to `super` is looked up above the receiver's class. -/
def send (toSuper : Bool) (selector : String) (receiver : V) (arguments : List V) : Eval V W V :=
  rt.onObject env (if toSuper then "superPerform" else "perform")
    (env.library.sendDescriptor arguments.length) receiver (arguments ++ [rt.text selector])

/-- The object of a block, made of the method that has the block's name. -/
def block (block : BlockLiteral) (name : String) : Eval V W V := do
  let method ← ofCall (rt.link (blockSite env name) [])
  match block.role, block.body.answers with
  | .method, _ =>
    rt.onObject env "smalltalkMethod" s!"(Ljava/lang/Object;){env.library.objectType}" act.self
      [method]
  | .value, true =>
    rt.onObject env "smalltalkBlockAnswer"
      s!"(Ljava/lang/Object;Ljava/lang/String;){env.library.objectType}" act.self
      [method, rt.text (dotted (env.markerName name))]
  | .value, false =>
    rt.onObject env "smalltalkBlock" s!"(Ljava/lang/Object;){env.library.objectType}" act.self
      [method]

end Runtime

variable (names : Nat → String)

def BlockLiteral.attached (k : Nat) (block : BlockLiteral) : List String :=
  if block.escapes then [env.markerName (names (k + (block.body.blocks env).length))] else []

mutual

/-- The markers of the blocks that an expression creates outside of its keyword messages, given the
number of blocks before it. -/
def Expr.attached (k : Nat) : Expr → List String
  | .literal .. | .pseudo .. | .reference .. | .primitive .. => []
  | .block parameters body span =>
    BlockLiteral.attached env names k ⟨.value, parameters, body, span⟩
  | .send target m _ =>
    if m.isKeyword then []
    else target.attached k ++ m.attached (k + (target.blocks env).length)
  | .cascade target messages _ =>
    target.attached k ++ cascadeAttached (k + (target.blocks env).length) messages
  | .assign _ value _ => value.attached k
  | .paren inner _ => inner.attached k

def Message.attached (k : Nat) : Message → List String
  | .unary _ => []
  | .binary _ argument _ => argument.attached k
  | .keyword parts _ => argumentsAttached k parts

def cascadeAttached (k : Nat) : List Message → List String
  | [] => []
  | m :: rest =>
    (if m.isKeyword then [] else m.attached k) ++ cascadeAttached (k + (m.blocks env).length) rest

def argumentsAttached (k : Nat) : List KeywordPart → List String
  | [] => []
  | ⟨keyword, argument⟩ :: rest =>
    match argument with
    | .block parameters body span =>
      BlockLiteral.attached env names k ⟨roleOf env keyword.name, parameters, body, span⟩ ++
        argumentsAttached (k + ((body.blocks env).length + 1)) rest
    | other => other.attached k ++ argumentsAttached (k + (other.blocks env).length) rest

end

def Expr.isSuper : Expr → Bool
  | .pseudo .super _ => true
  | _ => false

/-- What a keyword message catches; other messages leave it to what is around them. -/
def catchKeywordAnswers {α : Type} (m : Message) (markers : List String)
    (body : Eval V W α) : Eval V W α :=
  if m.isKeyword then catchAnswers env rt markers body else body

variable (places : String → Variable)

mutual

/-- The value of an expression, given the number of blocks before it. -/
def Expr.meaning (k : Nat) : Expr → Eval V W V
  | .literal kind text _ => rt.literal env act kind text
  | .pseudo word _ => rt.pseudo env act word
  | .reference name _ => rt.reference env act name (places name)
  | .block parameters body span =>
    rt.block env act ⟨.value, parameters, body, span⟩ (names (k + (body.blocks env).length))
  | .send target m _ =>
    let after := k + (target.blocks env).length
    catchKeywordAnswers env rt m (target.attached env names k ++ m.attached env names after) do
      let receiver ← target.meaning k
      m.meaning after target.isSuper receiver
  | .cascade target messages _ => do
    let receiver ← target.meaning k
    cascadeMeaning (k + (target.blocks env).length) target.isSuper receiver messages
  | .assign target value _ => do
    let v ← value.meaning k
    match places target.name with
    | .temporary n =>
      let _ ← rt.store env act n v
      return v
    | _ => return v
  | .paren inner _ => inner.meaning k
  -- Never compiled; it stands for the receiver.
  | .primitive .. => return act.self

def Message.meaning (k : Nat) (toSuper : Bool) (receiver : V) : Message → Eval V W V
  | .unary selector => rt.send env toSuper selector.name receiver []
  | .binary selector argument _ => do
    let value ← argument.meaning k
    rt.send env toSuper selector.name receiver [value]
  | .keyword parts _ => do
    let values ← argumentsMeaning k parts
    rt.send env toSuper (selectorOf parts) receiver values

/-- The value of the last of some messages, all to the same receiver. -/
def cascadeMeaning (k : Nat) (toSuper : Bool) (receiver : V) : List Message → Eval V W V
  | [] => return receiver
  | m :: rest => do
    let value ← catchKeywordAnswers env rt m (m.attached env names k) (m.meaning k toSuper receiver)
    if rest.isEmpty then return value
    else cascadeMeaning (k + (m.blocks env).length) toSuper receiver rest

/-- The values of arguments; a block has the role of its keyword. -/
def argumentsMeaning (k : Nat) : List KeywordPart → Eval V W (List V)
  | [] => return []
  | ⟨keyword, argument⟩ :: rest =>
    match argument with
    | .block parameters body span => do
      let value ← rt.block env act ⟨roleOf env keyword.name, parameters, body, span⟩
        (names (k + (body.blocks env).length))
      let values ← argumentsMeaning (k + ((body.blocks env).length + 1)) rest
      return value :: values
    | other => do
      let value ← other.meaning k
      let values ← argumentsMeaning (k + (other.blocks env).length) rest
      return value :: values

end

def Statement.meaning (k : Nat) : Statement → Eval V W V
  | .expression value =>
    catchAnswers env rt (value.attached env names k) (value.meaning env rt act names places k)
  | .answer value _ =>
    catchAnswers env rt (value.attached env names k) do
      throw (.answered (← value.meaning env rt act names places k))

/-- The value of the last of some statements; of none, the one given. -/
def statementsMeaning (whenEmpty : Eval V W V) (k : Nat) : List Statement → Eval V W V
  | [] => whenEmpty
  | s :: rest => do
    let value ← s.meaning env rt act names places k
    if rest.isEmpty then return value
    else statementsMeaning whenEmpty (k + (s.blocks env).length) rest

/-- What the statements of a sequence come to, given its parameters, what it returns without
statements, and the number of blocks before it. -/
def Sequence.value (parameters : List Ident) (whenEmpty : Eval V W V) (k : Nat) (s : Sequence) :
    Eval V W V := do
  if !s.temporaries.isEmpty then
    let _ ← rt.initTemporaries env act s.temporaries.length
  statementsMeaning env rt act names (variableOf parameters s.temporaries) whenEmpty k s.statements

/-- A method returns the value of its body, or what is answered on the way. -/
def returning (body : Eval V W V) : EStateM V W V := fun world =>
  match body world with
  | .ok value world | .error (.answered value) world => .ok value world
  | .error (.thrown exception) world => .error exception world

def Sequence.meaning (parameters : List Ident) (whenEmpty : Eval V W V) (k : Nat) (s : Sequence) :
    EStateM V W V :=
  returning (s.value env rt act names parameters whenEmpty k)

end
end SmalltalkJvm
