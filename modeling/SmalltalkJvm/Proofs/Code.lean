import SmalltalkJvm.Compile.Body
import SmalltalkJvm.Proofs.Flow

/-! # Structured code

The code of a method, put together as its constructs nest: runs of operations, regions around the
code that they protect, and statements, which settle what they leave on the stack. A block that
answers from the method that created it attaches its marker to the innermost region around it.

Running structured code on a draft emits its steps. Labels are made on the way, so the same code
takes different labels at different places.
-/

namespace SmalltalkJvm

/-- A draft step that neither makes nor places a label. -/
inductive Operation where
  | line (number : Nat)
  | dup
  | areturn
  | discard
  | int (value : Int32)
  | string (text : String)
  | load (slot : UInt16)
  | getStatic (field : MemberRef)
  | invokeVirtual (method : MemberRef)
  | invokeStatic (method : MemberRef)
  | invokeDynamic (site : CallSite)
  deriving DecidableEq, Repr, Inhabited

namespace Operation

def step : Operation → Draft.Step
  | line number => .line number
  | dup => .plain .dup
  | areturn => .plain .areturn
  | discard => .discard
  | int value => .int value
  | string text => .string text
  | load slot => .load slot
  | getStatic field => .getStatic field
  | invokeVirtual method => .invoke .invokevirtual method
  | invokeStatic method => .invoke .invokestatic method
  | invokeDynamic site => .invokeDynamic site

def instruction : Operation → Instruction
  | line number => .line number
  | dup => .plain .dup
  | areturn => .plain .areturn
  | discard => .plain .pop
  | int value => Draft.intInstruction value
  | string text => .constant (.string text)
  | load slot => .slot .aload slot
  | getStatic field => .field .getstatic field
  | invokeVirtual method => .invoke .invokevirtual method
  | invokeStatic method => .invoke .invokestatic method
  | invokeDynamic site => .dynamic site

end Operation

inductive Code where
  | operations (operations : List Operation)
  | append (first second : Code)
  /-- Attaches a marker to the region around it. -/
  | marker (name : String)
  | region (span : Span) (body : Code)
  /-- A last statement that leaves nothing answers nil; what the others leave is dropped. -/
  | statement (isLast : Bool) (body : Code)
  deriving Repr, Inhabited

/-- Markers with the labels of their handlers, numbered from the first. -/
def handlerLabels (first : Nat) : List String → List (Label × String)
  | [] => []
  | marker :: markers => (⟨first⟩, marker) :: handlerLabels (first + 1) markers

namespace Draft

variable (env : Env)

def nilOperations : List Operation :=
  [.load 1, .invokeVirtual ⟨env.library.object, "referenceNil", s!"(){env.library.objectType}"⟩]

def runOperations (d : Draft) (operations : List Operation) : Draft :=
  d.run (operations.map Operation.step)

def openRegion (d : Draft) : Draft := d.run [.label, .mark d.nextLabel]

def answerMethod (marker : String) : MemberRef :=
  ⟨marker, "answer", s!"(){env.library.objectType}"⟩

def handlerSteps (span : Span) (handler : Label × String) : List Step :=
  [.markHandler handler.1 handler.2, .line span.line,
    .invoke .invokevirtual (answerMethod env handler.2), .plain .areturn]

/-- The end of a region with handlers, whose labels are numbered from `n`: the end of the protected
range, the place after the handlers, and the handlers. -/
def closeSteps (start : Label) (span : Span) (n : Nat) (markers : List String) : List Step :=
  let handlers := handlerLabels (n + 2) markers
  [.label, .label, .mark ⟨n⟩] ++ handlers.map (fun _ => .label) ++
    handlers.map (fun h => .protect ⟨start, ⟨n⟩, h.1, some h.2⟩) ++
    [.goto ⟨n + 1⟩] ++ handlers.flatMap (handlerSteps env span) ++ [.mark ⟨n + 1⟩]

/-- Ends a region; without markers there is nothing to protect against. -/
def closeRegion (d : Draft) (start : Label) (span : Span) (markers : List String) : Draft :=
  if markers = [] then d else d.run (closeSteps env start span d.labels.size markers)

/-- What is left to do after a statement that started at one depth and ends at another. -/
def settling (isLast : Bool) (base depth : Nat) : List Operation :=
  if isLast then if depth = base then nilOperations env else []
  else List.replicate (depth - base) .discard

def settle (d : Draft) (isLast : Bool) (base : Nat) : Draft :=
  d.runOperations (settling env isLast base d.stack.depth)

end Draft

namespace Code

variable (env : Env)

/-- The markers that the code attaches to the region around it. -/
def markers : Code → List String
  | operations _ => []
  | append first second => first.markers ++ second.markers
  | marker name => [name]
  | region _ _ => []
  | statement _ body => body.markers

def run : Code → Draft → Draft
  | operations ops, d => d.runOperations ops
  | append first second, d => second.run (first.run d)
  | marker _, d => d
  | region span body, d =>
    (body.run d.openRegion).closeRegion env d.nextLabel span body.markers
  | statement isLast body, d => (body.run d).settle env isLast d.stack.depth

end Code
end SmalltalkJvm
