import SmalltalkJvm.Jvm.AssemblyFault
import SmalltalkJvm.Jvm.Draft

/-! # Compile errors

An error is a cause and the place in the script that it concerns. Every error ends the compilation
of its unit.
-/

namespace SmalltalkJvm

/-- What is wrong with an escape directive. -/
inductive DirectiveFault where
  | unknown
  /-- The escape identifier stands where a value is needed. -/
  | noValue
  /-- The escape identifier is sent something other than a keyword message. -/
  | notKeyword (escapeIdentifier : String)
  | notLiteral (keyword : String)
  | notIndex (text : String)
  | notParameter (slot : UInt16)
  | descriptor (error : DescriptorError)
  | operands (owner name : String) (needed available : Nat)
  | movesPrimitives (member : MemberRef)
  | primitiveField (member : MemberRef)
  | described (text : String)
  deriving DecidableEq, Repr, Inhabited

def DirectiveFault.text : DirectiveFault → String
  | unknown => "unknown directive"
  | noValue => "only keyword messages can be sent to it"
  | notKeyword escapeIdentifier => s!"'{escapeIdentifier}' only understands keyword messages"
  | notLiteral keyword => s!"argument of '{keyword}' must be a string or number literal"
  | notIndex text => s!"'{text}' is not a valid index"
  | notParameter slot => s!"local {slot.toNat} is not a parameter of this method"
  | descriptor error => error.message
  | operands owner name needed available =>
    s!"{owner}.{name} needs {needed} operands, the stack holds {available}"
  | movesPrimitives m => s!"{m.owner}.{m.name} {m.descriptor} moves primitive values"
  | primitiveField m => s!"{m.owner}.{m.name} has primitive type {m.descriptor}"
  | described text => text

/-- A tree of a shape that no script text has, a limit of the class-file format, or a broken rule
of the compiler itself. -/
inductive InternalFault where
  | keywordWithoutParts
  | malformedKeyword (keyword selector : String)
  | cascadeWithoutMessages
  | answerNotLast
  | primitiveNode (number escapeIdentifier : String)
  | directiveArguments (directive : String) (count : Nat)
  | declarationOutsideScope
  | regionLeftOpen
  | noOpenRegion
  | answerOutsideStatement
  | noEnclosingMethod
  | draft (fault : DraftFault)
  | assembly (fault : AssemblyFault)
  | described (text : String)
  deriving DecidableEq, Repr, Inhabited

def InternalFault.text : InternalFault → String
  | keywordWithoutParts => "keyword message without parts"
  | malformedKeyword keyword selector => s!"malformed keyword part '{keyword}' in '{selector}'"
  | cascadeWithoutMessages => "cascade without messages"
  | answerNotLast => "an answer must be the last statement of its sequence"
  | primitiveNode number escapeIdentifier =>
    s!"<primitive: {number}> is not supported, use '{escapeIdentifier} primitive: {number}' instead"
  | directiveArguments directive count => s!"escape directive '{directive}' with {count} arguments"
  | declarationOutsideScope => "declaration outside any scope"
  | regionLeftOpen => "protected region left open at end of method"
  | noOpenRegion => "no protected region to close"
  | answerOutsideStatement => "non-local return outside any statement"
  | noEnclosingMethod => "no enclosing method to resume"
  | draft fault => fault.text
  | assembly fault => fault.text
  | described text => text

inductive Cause where
  | duplicateDeclaration (name : String)
  | unresolvedAssignmentTarget (name : String)
  | unsupportedArity (selector : String) (arity limit : Nat)
  | directive (name : String) (fault : DirectiveFault)
  | internal (fault : InternalFault)
  deriving DecidableEq, Repr, Inhabited

def Cause.text : Cause → String
  | duplicateDeclaration name => s!"'{name}' is already declared in this scope"
  | unresolvedAssignmentTarget name =>
    s!"cannot assign to '{name}', only temporaries are assignable"
  | unsupportedArity selector arity limit =>
    s!"'{selector}' has {arity} arguments, at most {limit} are supported"
  | directive name fault => s!"invalid escape directive '{name}': {fault.text}"
  | internal fault => s!"internal compiler error: {fault.text}"

structure CompileError where
  cause : Cause
  span : Span
  deriving DecidableEq, Repr, Inhabited

namespace CompileError

def message (e : CompileError) : String := s!"at {e.span.place}: {e.cause.text}"

def internal (fault : InternalFault) (span : Span) : CompileError := ⟨.internal fault, span⟩

def ofAssembly (fault : AssemblyFault) : CompileError := internal (.assembly fault) fault.span

def ofDraft (fault : DraftFault) (span : Span) : CompileError := internal (.draft fault) span

end CompileError
end SmalltalkJvm
