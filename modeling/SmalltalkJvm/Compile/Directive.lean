import SmalltalkJvm.Compile.SupportCall

/-! # Escape directives

Keyword messages to the escape identifier are directives for single instructions. Their arguments
are string or number literals. Each is checked against the method under construction before
anything is emitted, so that a directive never leaves a fault in it: it moves references only, and
takes no more operands than there are.
-/

namespace SmalltalkJvm.Compile

inductive Directive where
  | argLoad | aload | invokeVirtual | invokeStatic | getStatic | primitive
  deriving DecidableEq, Repr, Inhabited

def Directive.ofSelector? : String → Option Directive
  | "argLoad:" => some .argLoad
  | "aload:" => some .aload
  | "invokeVirtual:method:matching:" => some .invokeVirtual
  | "invokeStatic:method:matching:" => some .invokeStatic
  | "getStatic:named:as:" => some .getStatic
  | "primitive:" => some .primitive
  | _ => none

/-- The text of a directive's argument. -/
def directiveArgument (name : String) (part : KeywordPart) : Except CompileError String :=
  match part.argument with
  | .literal .string text _ | .literal .number text _ => .ok text
  | other => .error ⟨.directive name (.notLiteral part.keyword.name), other.span⟩

/-- A number of at most 16 bits: decimal digits, perhaps after a plus sign. -/
def index? (text : String) : Option UInt16 :=
  let digits :=
    match text.toList with
    | '+' :: rest => rest
    | all => all
  if digits ≠ [] ∧ digits.all Char.isDigit then
    let n := digits.foldl (fun n c => n * 10 + (c.toNat - '0'.toNat)) 0
    if n < 65536 then some n.toUInt16 else none
  else none

def directiveIndex (name text : String) (span : Span) : Compile UInt16 :=
  match index? text with
  | some n => pure n
  | none => throw ⟨.directive name (.notIndex text), span⟩

variable (env : Env)

def directiveInvoke (name : String) (op : Opcode) (method : MemberRef) (span : Span) :
    Compile Unit := do
  match MethodDescriptor.parse method.descriptor with
  | .error e => throw ⟨.directive name (.descriptor e), span⟩
  | .ok descriptor =>
    let needed := descriptor.parameters.length + (if op = .invokestatic then 0 else 1)
    let available ← stackDepth
    if available < needed then
      throw ⟨.directive name (.operands method.owner method.name needed available), span⟩
    if !(descriptor.parameters ++ descriptor.result.toList).all FieldType.isReference then
      throw ⟨.directive name (.movesPrimitives method), span⟩
    emit (.invoke op method)

def directiveField (name : String) (field : MemberRef) (span : Span) : Compile Unit :=
  match FieldType.parse field.descriptor with
  | .error e => throw ⟨.directive name (.descriptor e), span⟩
  | .ok t =>
    if t.isReference then emit (.getStatic field)
    else throw ⟨.directive name (.primitiveField field), span⟩

def directiveLoad (name : String) (slot : UInt16) (span : Span) : Compile Unit := do
  let parameters := (← get).current.draft.entryLocals.length
  if slot.toNat < parameters then emit (.load slot)
  else throw ⟨.directive name (.notParameter slot), span⟩

def directivePrimitive (number : UInt16) : Compile Unit := do
  pushReceiver
  pushContext
  invokeObject env s!"primitive{number.toNat}"
    s!"({env.library.contextType}){env.library.objectType}"

/-- Carries out a directive, whose name is its selector. -/
def directive (name : String) (kind : Directive) (arguments : List String) (span : Span) :
    Compile Unit :=
  match kind, arguments with
  | .argLoad, [text] => do
    let slot ← directiveIndex name text span
    pushArgument env slot
  | .aload, [text] => do
    let slot ← directiveIndex name text span
    directiveLoad name slot span
  | .invokeVirtual, [owner, method, descriptor] =>
    directiveInvoke name .invokevirtual ⟨owner, method, descriptor⟩ span
  | .invokeStatic, [owner, method, descriptor] =>
    directiveInvoke name .invokestatic ⟨owner, method, descriptor⟩ span
  | .getStatic, [owner, field, descriptor] => directiveField name ⟨owner, field, descriptor⟩ span
  | .primitive, [text] => do
    let number ← directiveIndex name text span
    directivePrimitive env number
  | _, _ => throw (.internal (.directiveArguments name arguments.length) span)

/-- A keyword message to the escape identifier. -/
def escape (parts : List KeywordPart) (span : Span) : Compile Unit := do
  let name := selectorOf parts
  match Directive.ofSelector? name with
  | none => throw ⟨.directive name .unknown, span⟩
  | some kind =>
    let arguments ← ofExcept (parts.mapM (directiveArgument name))
    openLine span
    directive env name kind arguments span

end SmalltalkJvm.Compile
