import SmalltalkJvm.Compile.Directive
import SmalltalkJvm.Compile.Region

/-! # Method bodies from sequences

Every expression leaves its value on the operand stack. A statement's value is dropped unless the
statement is the last one, whose value is returned. Blocks among the expressions are compiled on
the way, each into a method of its own.
-/

namespace SmalltalkJvm.Compile

variable (env : Env)

/-- What a block becomes an object of. -/
inductive BlockRole where
  | value
  /-- The body of a method: its answers are the method's own. -/
  | method
  deriving DecidableEq, Repr, Inhabited

def roleOf (keyword : String) : BlockRole :=
  if keyword = env.settings.methodKeyword then .method else .value

/-- Compiles an expression that has to leave a value. -/
def asValue (span : Span) (expression : Compile Receiver) : Compile Unit := do
  if (← expression) = .escape then
    throw ⟨.directive env.settings.escapeIdentifier .noValue, span⟩

def literal (kind : LiteralKind) (text : String) (span : Span) : Compile Receiver := do
  openLine span
  pushLiteral env kind text
  return .value

def pseudo (word : Pseudo) (span : Span) : Compile Receiver := do
  openLine span
  match word with
  | .self =>
    pushReceiver
    return .value
  | .super =>
    pushReceiver
    return .super
  | .nil =>
    pushNil env
    return .value
  | .true =>
    pushFixed env "referenceTrue"
    return .value
  | .false =>
    pushFixed env "referenceFalse"
    return .value

def reference (name : String) (span : Span) : Compile Receiver := do
  let resolution ← resolve name
  if resolution = .unresolved ∧ name = env.settings.escapeIdentifier then return .escape
  openLine span
  match resolution with
  | .temporary slot => pushTemporary env slot
  | .argument slot => pushArgument env slot
  | .unresolved => pushGlobal env name
  return .value

/-- The temporary to assign to; nothing else can be assigned. -/
def assignable (target : Ident) : Compile UInt16 := do
  match ← resolve target.name with
  | .temporary slot => return slot
  | _ => throw ⟨.unresolvedAssignmentTarget target.name, target.span⟩

/-- Stores a copy of the top value. -/
def assign (slot : UInt16) (span : Span) : Compile Unit := do
  openLine span
  emit (.plain .dup)
  storeTemporary env slot

/-- The escape identifier understands keyword messages only. -/
def rejectEscape (receiver : Receiver) (selector : Ident) : Compile Unit :=
  if receiver = .escape then
    throw ⟨.directive selector.name (.notKeyword env.settings.escapeIdentifier), selector.span⟩
  else pure ()

/-- A keyword is a colon after something without one. -/
def isKeyword (name : String) : Bool :=
  2 ≤ name.utf8ByteSize && name.toList.getLast? == some ':' && name.toList.count ':' == 1

def checkParts (parts : List KeywordPart) (span : Span) : Compile Unit :=
  match parts with
  | [] => throw (.internal .keywordWithoutParts span)
  | _ :: _ =>
    match parts.find? fun p => !isKeyword p.keyword.name with
    | some p =>
      throw (.internal (.malformedKeyword p.keyword.name (selectorOf parts)) p.keyword.span)
    | none => pure ()

/-- A keyword message, given how its arguments are compiled. -/
def keywordMessage (receiver : Receiver) (parts : List KeywordPart) (span : Span)
    (arguments : Compile Unit) : Compile Unit := do
  checkParts parts span
  if receiver = .escape then escape env parts span
  else
    let selector := selectorOf parts
    checkArity selector parts.length span
    openSend span
    arguments
    closeSend
    dispatch env selector parts.length receiver span

/-- Notes a part of the innermost keyword message. A symbol as its first argument names blocks. -/
def notePart (first : Bool) (part : KeywordPart) : Compile Unit := do
  modifySend (·.addKeyword part.keyword.name)
  match first, part.argument.symbol? with
  | true, some text => modifySend (·.setSymbol text)
  | _, _ => pure ()

/-- Runs an action inside a region, if there is to be one. -/
def inRegion (wanted : Bool) (span : Span) (action : Compile Unit) : Compile Unit := do
  if wanted then
    openRegion span
    action
    closeRegion env
  else action

/-- Makes an object of a block's method. -/
def pushBlock (role : BlockRole) (answers : Bool) (name : String) (span : Span) :
    Compile Unit := do
  openLine span
  pushReceiver
  emit (.invokeDynamic (blockSite env name))
  match role, answers with
  | .method, _ =>
    invokeObject env "smalltalkMethod" s!"(Ljava/lang/Object;){env.library.objectType}"
  | .value, true =>
    let marker ← addMarker env name span
    emit (.string (dotted marker))
    invokeObject env "smalltalkBlockAnswer"
      s!"(Ljava/lang/Object;Ljava/lang/String;){env.library.objectType}"
    attachMarker marker span
  | .value, false =>
    invokeObject env "smalltalkBlock" s!"(Ljava/lang/Object;){env.library.objectType}"

/-- A block, given how its sequence is compiled. -/
def block (role : BlockRole) (parameters : List Ident) (answers : Bool) (span : Span)
    (sequence : Compile Unit) : Compile Unit := do
  let name ← nameBlock
  enterMethod (env.method env.blockLocals)
  pushScope
  parameters.forM (declare .argument)
  sequence
  popScope
  let body ← leaveMethod span
  let method : Method :=
    { access := Access.isPrivate ||| Access.isStatic ||| Access.isSynthetic
      name
      descriptor := env.library.blockDescriptor
      body }
  modify fun s => { s with blocks := s.blocks.push method }
  pushBlock env role answers name span

/-- Drops values until `n` are gone. -/
def discard : Nat → Compile Unit
  | 0 => pure ()
  | n + 1 => do
    emit .discard
    discard n

/-- What a statement leaves: the last one its value, or nil if it has none, the others nothing. -/
def settle (isLast : Bool) (base : Nat) : Compile Unit := do
  if ← isReachable then
    let depth ← stackDepth
    if isLast then
      if depth = base then pushNil env
    else discard (depth - base)

def statementWith (isLast : Bool) (span : Span) (body : Compile Unit) : Compile Unit := do
  let base ← stackDepth
  openRegion span
  body
  closeRegion env
  settle env isLast base

/-- An answer returns its value. -/
def answerWith (span : Span) (value : Compile Unit) : Compile Unit := do
  openLine span
  value
  emit (.plain .areturn)

def declareTemporaries (temporaries : List Ident) : Compile Unit :=
  match temporaries with
  | [] => pure ()
  | first :: _ => do
    temporaries.forM (declare .temporary)
    let count := ((← get).scopes.current?.map Scope.temporaries).getD 0
    openLine first.span
    initTemporaries env count

/-- A sequence, given its statements and what it answers if it has none. -/
def sequenceWith (s : Sequence) (whenEmpty statements : Compile Unit) : Compile Unit := do
  declareTemporaries env s.temporaries
  if s.statements.isEmpty then
    openLine s.span
    whenEmpty
  else statements
  emit (.plain .areturn)

mutual

/-- Compiles an expression and tells what it leaves for a message. -/
def receiver : Expr → Compile Receiver
  | .literal kind text span => literal env kind text span
  | .pseudo word span => pseudo env word span
  | .reference name span => reference env name span
  | .block parameters body span => do
    block env .value parameters body.answers span (sequence (pushNil env) body)
    return .value
  | .send target m span => do
    inRegion env m.isKeyword span do
      let r ← receiver target
      message r m
    return .value
  | .cascade target messages span => do
    if messages.isEmpty then throw (.internal .cascadeWithoutMessages span)
    let r ← receiver target
    cascade r messages
    return .value
  | .assign target value span => do
    let slot ← assignable target
    asValue env value.span (receiver value)
    assign env slot span
    return .value
  | .paren inner _ => do
    asValue env inner.span (receiver inner)
    return .value
  | .primitive number span =>
    throw (.internal (.primitiveNode number env.settings.escapeIdentifier) span)

/-- Sends a message to a receiver that has been compiled. -/
def message (r : Receiver) : Message → Compile Unit
  | .unary selector => do
    rejectEscape env r selector
    dispatch env selector.name 0 r selector.span
  | .binary selector argument span => do
    rejectEscape env r selector
    asValue env argument.span (receiver argument)
    dispatch env selector.name 1 r span
  | .keyword parts span => keywordMessage env r parts span (arguments true parts)

/-- Sends messages to one receiver, which is copied for all but the last; of their values only the
last stays. Directives have no receiver to copy. -/
def cascade (r : Receiver) : List Message → Compile Unit
  | [] => pure ()
  | m :: rest => do
    if r = .escape then message r m
    else
      if !rest.isEmpty then emit (.plain .dup)
      inRegion env m.isKeyword m.span (message r m)
      if !rest.isEmpty then emit .discard
    cascade r rest

/-- Compiles the arguments of a keyword message. -/
def arguments (first : Bool) : List KeywordPart → Compile Unit
  | [] => pure ()
  | ⟨keyword, argument⟩ :: rest => do
    notePart first ⟨keyword, argument⟩
    match argument with
    | .block parameters body span =>
      block env (roleOf env keyword.name) parameters body.answers span
        (sequence (pushNil env) body)
    | other => asValue env other.span (receiver other)
    arguments false rest

def sequence (whenEmpty : Compile Unit) : Sequence → Compile Unit
  | ⟨temporaries, ss, span⟩ =>
    sequenceWith env ⟨temporaries, ss, span⟩ whenEmpty (statements ss)

/-- An answer has to be the last statement. -/
def statements : List Statement → Compile Unit
  | [] => pure ()
  | s :: rest => do
    if s.isAnswer && !rest.isEmpty then throw (.internal .answerNotLast s.span)
    statement rest.isEmpty s
    statements rest

def statement (isLast : Bool) : Statement → Compile Unit
  | .expression value =>
    statementWith env isLast value.span (asValue env value.span (receiver value))
  | .answer value span =>
    statementWith env isLast span
      (answerWith span (asValue env value.span (receiver value)))

end

/-- The methods and classes that a script becomes. -/
structure Generated where
  sendMessages : Method
  blocks : List Method
  markers : List ClassFile
  deriving Repr, Inhabited

/-- An empty script answers its receiver. -/
def script (s : Script) : Compile Method := do
  pushScope
  sequence env pushReceiver s.body
  popScope
  let frame := (← get).current
  let body ← ofExcept (frame.finish s.span)
  return ⟨Access.isProtected, "sendMessages", env.library.scriptDescriptor, body⟩

def generate (s : Script) : Except CompileError Generated :=
  match script env s (State.initial env) with
  | .ok sendMessages state => .ok ⟨sendMessages, state.blocks.toList, state.markers.toList⟩
  | .error e _ => .error e

end SmalltalkJvm.Compile
