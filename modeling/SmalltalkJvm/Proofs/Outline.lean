import SmalltalkJvm.Proofs.Layout
import SmalltalkJvm.Proofs.Names

/-! # The code of a script

The code that each construct of a script stands for, as a function of the construct alone. The only
things it takes from its surroundings are what names resolve to in the method and the names that the
blocks of the unit get.

The blocks of a script are numbered in the order in which they are completed: those inside a block
before the block itself. A construct is given the number of blocks before it.
-/

namespace SmalltalkJvm

open Compile

/-- A block of a script with the role that it is compiled in. -/
structure BlockLiteral where
  role : BlockRole
  parameters : List Ident
  body : Sequence
  span : Span
  deriving Inhabited

/-- Whether the block answers from the method that created it. -/
def BlockLiteral.escapes (literal : BlockLiteral) : Bool :=
  literal.role == .value && literal.body.answers

variable (env : Env)

/-- The class of the exceptions that carry the answers of a block. -/
def Env.markerName (block : String) : String := slashed (env.unit.marker block)

mutual

def Expr.blocks : Expr → List BlockLiteral
  | .literal .. | .pseudo .. | .reference .. | .primitive .. => []
  | .block parameters body span => body.blocks ++ [⟨.value, parameters, body, span⟩]
  | .send target m _ => target.blocks ++ m.blocks
  | .cascade target messages _ => target.blocks ++ messageBlocks messages
  | .assign _ value _ => value.blocks
  | .paren inner _ => inner.blocks

def Message.blocks : Message → List BlockLiteral
  | .unary _ => []
  | .binary _ argument _ => argument.blocks
  | .keyword parts _ => argumentBlocks parts

def messageBlocks : List Message → List BlockLiteral
  | [] => []
  | m :: rest => m.blocks ++ messageBlocks rest

def argumentBlocks : List KeywordPart → List BlockLiteral
  | [] => []
  | ⟨keyword, argument⟩ :: rest =>
    match argument with
    | .block parameters body span =>
      (body.blocks ++ [⟨roleOf env keyword.name, parameters, body, span⟩]) ++ argumentBlocks rest
    | other => other.blocks ++ argumentBlocks rest

def Sequence.blocks : Sequence → List BlockLiteral
  | ⟨_, ss, _⟩ => statementBlocks ss

def statementBlocks : List Statement → List BlockLiteral
  | [] => []
  | s :: rest => s.blocks ++ statementBlocks rest

def Statement.blocks : Statement → List BlockLiteral
  | .expression value | .answer value _ => value.blocks

end

namespace Operation

def object (name descriptor : String) : Operation :=
  .invokeVirtual ⟨env.library.object, name, descriptor⟩

def context (name descriptor : String) : Operation :=
  .invokeVirtual ⟨env.library.context, name, descriptor⟩

def fixed (accessor : String) : List Operation :=
  [.load 1, object env accessor s!"(){env.library.objectType}"]

def literal (kind : LiteralKind) (text : String) : List Operation :=
  [.load 1, .string text,
    object env (literalFactory kind) s!"(Ljava/lang/Object;){env.library.objectType}"]

def global (name : String) : List Operation :=
  [.load 1, .string name, object env "reference" s!"(Ljava/lang/String;){env.library.objectType}"]

def slot (accessor : String) (n : UInt16) : List Operation :=
  [.load 2, .int (Int32.ofNat n), context env accessor s!"(I){env.library.objectType}"]

def assign (n : UInt16) : List Operation :=
  [.dup, .int (Int32.ofNat n), .load 2,
    .invokeStatic ⟨env.library.context, "temporaryPutAt",
      s!"({env.library.objectType}I{env.library.contextType})V"⟩]

def initTemporaries (count : UInt16) : List Operation :=
  [.load 2, .int (Int32.ofNat count), context env "initTemporaries" "(I)V"]

def dispatch (selector : String) (arity : Nat) (receiver : Receiver) (span : Span) :
    List Operation :=
  [.line span.line, .string selector,
    object env (if receiver = .super then "superPerform" else "perform")
      (env.library.sendDescriptor arity)]

def pseudo : Pseudo → List Operation
  | .self | .super => [.load 1]
  | .nil => fixed env "referenceNil"
  | .true => fixed env "referenceTrue"
  | .false => fixed env "referenceFalse"

def reference (name : String) : Resolution → List Operation
  | .temporary n => slot env "temporaryAt" n
  | .argument n => slot env "argumentAt" n
  | .unresolved => global env name

def block (literal : BlockLiteral) (name : String) : List Operation :=
  [.line literal.span.line, .load 1, .invokeDynamic (blockSite env name)] ++
    match literal.role, literal.body.answers with
    | .method, _ => [object env "smalltalkMethod" s!"(Ljava/lang/Object;){env.library.objectType}"]
    | .value, true =>
      [.string (dotted (env.markerName name)),
        object env "smalltalkBlockAnswer"
          s!"(Ljava/lang/Object;Ljava/lang/String;){env.library.objectType}"]
    | .value, false =>
      [object env "smalltalkBlock" s!"(Ljava/lang/Object;){env.library.objectType}"]

def directive : Directive → List String → List Operation
  | .argLoad, [text] => (index? text).elim [] fun n => slot env "argumentAt" n
  | .aload, [text] => (index? text).elim [] fun n => [.load n]
  | .invokeVirtual, [owner, method, descriptor] => [.invokeVirtual ⟨owner, method, descriptor⟩]
  | .invokeStatic, [owner, method, descriptor] => [.invokeStatic ⟨owner, method, descriptor⟩]
  | .getStatic, [owner, field, descriptor] => [.getStatic ⟨owner, field, descriptor⟩]
  | .primitive, [text] =>
    (index? text).elim [] fun n =>
      [.load 1, .load 2, object env s!"primitive{n.toNat}"
        s!"({env.library.contextType}){env.library.objectType}"]
  | _, _ => []

def escape (parts : List KeywordPart) (span : Span) : List Operation :=
  match Directive.ofSelector? (selectorOf parts),
    parts.mapM (directiveArgument (selectorOf parts)) with
  | some kind, .ok arguments => .line span.line :: directive env kind arguments
  | _, _ => []

end Operation

/-- Code that depends on the names of the unit's block methods and the number of blocks before. -/
abbrev Plan := (Nat → String) → Nat → Code

def Plan.operations (operations : List Operation) : Plan := fun _ _ => .operations operations

/-- One construct after another, with the number of blocks in the first. -/
def Plan.append (count : Nat) (first second : Plan) : Plan :=
  fun names k => .append (first names k) (second names (k + count))

def Plan.region (wanted : Bool) (span : Span) (body : Plan) : Plan :=
  if wanted then fun names k => .region span (body names k) else body

def Plan.statement (isLast : Bool) (span : Span) (body : Plan) : Plan :=
  fun names k => .statement isLast (.region span (body names k))

/-- The object of a block, whose number comes after those of the blocks inside it. -/
def BlockLiteral.plan (literal : BlockLiteral) : Plan := fun names k =>
  let name := names (k + (literal.body.blocks env).length)
  .append (.operations (Operation.block env literal name))
    (if literal.escapes then .marker (env.markerName name) else .operations [])

/-- How an expression stands as the receiver of a message, given what names resolve to. -/
def Expr.asReceiver (resolve : String → Resolution) : Expr → Receiver
  | .pseudo .super _ => .super
  | .reference name _ =>
    if resolve name = .unresolved ∧ name = env.settings.escapeIdentifier then .escape else .value
  | _ => .value

section

variable (resolve : String → Resolution)

mutual

def Expr.plan : Expr → Plan
  | .literal kind text span => .operations (.line span.line :: Operation.literal env kind text)
  | .pseudo word span => .operations (.line span.line :: Operation.pseudo env word)
  | .reference name span =>
    if resolve name = .unresolved ∧ name = env.settings.escapeIdentifier then .operations []
    else .operations (.line span.line :: Operation.reference env name (resolve name))
  | .block parameters body span => BlockLiteral.plan env ⟨.value, parameters, body, span⟩
  | .send target m span =>
    .region m.isKeyword span
      (.append (target.blocks env).length target.plan (m.plan (target.asReceiver env resolve)))
  | .cascade target messages _ =>
    .append (target.blocks env).length target.plan
      (cascadePlan (target.asReceiver env resolve) messages)
  | .assign target value span =>
    .append (value.blocks env).length value.plan
      (.operations (.line span.line ::
        match resolve target.name with
        | .temporary n => Operation.assign env n
        | _ => []))
  | .paren inner _ => inner.plan
  -- Never compiled; it stands for the receiver.
  | .primitive .. => .operations [.load 1]

def Message.plan (r : Receiver) : Message → Plan
  | .unary selector => .operations (Operation.dispatch env selector.name 0 r selector.span)
  | .binary selector argument span =>
    .append (argument.blocks env).length argument.plan
      (.operations (Operation.dispatch env selector.name 1 r span))
  | .keyword parts span =>
    if r = .escape then .operations (Operation.escape env parts span)
    else
      .append (argumentBlocks env parts).length (argumentsPlan parts)
        (.operations (Operation.dispatch env (selectorOf parts) parts.length r span))

def cascadePlan (r : Receiver) : List Message → Plan
  | [] => .operations []
  | m :: rest =>
    if r = .escape then .append (m.blocks env).length (m.plan r) (cascadePlan r rest)
    else
      .append 0 (.operations (if rest.isEmpty then [] else [.dup]))
        (.append (m.blocks env).length (.region m.isKeyword m.span (m.plan r))
          (.append 0 (.operations (if rest.isEmpty then [] else [.discard])) (cascadePlan r rest)))

def argumentsPlan : List KeywordPart → Plan
  | [] => .operations []
  | ⟨keyword, argument⟩ :: rest =>
    match argument with
    | .block parameters body span =>
      .append ((body.blocks env).length + 1)
        (BlockLiteral.plan env ⟨roleOf env keyword.name, parameters, body, span⟩)
        (argumentsPlan rest)
    | other => .append (other.blocks env).length other.plan (argumentsPlan rest)

end

def Statement.plan (isLast : Bool) : Statement → Plan
  | .expression value => .statement isLast value.span (value.plan env resolve)
  | .answer value span =>
    .statement isLast span
      (.append 0 (.operations [.line span.line])
        (.append (value.blocks env).length (value.plan env resolve) (.operations [.areturn])))

def statementsPlan : List Statement → Plan
  | [] => .operations []
  | s :: rest =>
    .append (s.blocks env).length (s.plan env resolve rest.isEmpty) (statementsPlan rest)

end

def Operation.declarations (temporaries : List Ident) : List Operation :=
  match temporaries with
  | [] => []
  | first :: _ => .line first.span.line :: Operation.initTemporaries env (.ofNat temporaries.length)

/-- The body of a method with the parameters given and what it answers without statements. -/
def Sequence.plan (parameters : List Ident) (whenEmpty : List Operation) (s : Sequence) : Plan :=
  .append 0 (.operations (Operation.declarations env s.temporaries))
    (.append (s.blocks env).length
      (if s.statements.isEmpty then .operations (.line s.span.line :: whenEmpty)
        else statementsPlan env (lookup parameters s.temporaries) s.statements)
      (.operations [.areturn]))

end SmalltalkJvm
