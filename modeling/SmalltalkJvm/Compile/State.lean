import SmalltalkJvm.Compile.Naming
import SmalltalkJvm.Compile.Scope
import SmalltalkJvm.Compile.Settings
import SmalltalkJvm.Jvm.ClassFile
import SmalltalkJvm.Source.Tree

/-! # Compiler state

While a script is compiled, the methods of its blocks are built one inside the other: the body of a
block is finished before the method around it goes on. The state holds the method under
construction, those that wait for it, the open scopes and keyword messages, and what is complete.
-/

namespace SmalltalkJvm

/-- What stays the same while a script is compiled. -/
structure Env where
  settings : Settings := {}
  unit : UnitName
  deriving DecidableEq, Repr, Inhabited

/-- A stretch of code that is protected against the answers of the blocks created in it. -/
structure Region where
  start : Label
  span : Span
  /-- Marker classes of those blocks, in the order of their creation. -/
  markers : Array String := #[]
  deriving DecidableEq, Repr, Inhabited

/-- A method under construction. -/
structure MethodFrame where
  draft : Draft
  /-- Open regions, innermost first. -/
  regions : List Region := []
  deriving Inhabited

structure State where
  current : MethodFrame
  /-- The methods around the current one, innermost first. -/
  suspended : List MethodFrame := []
  scopes : ScopeStack := {}
  /-- The keyword messages whose arguments are being compiled, innermost first. -/
  pending : List PendingSend := []
  /-- Methods of the blocks compiled so far. -/
  blocks : Array Method := #[]
  /-- Marker classes of the blocks compiled so far. -/
  markers : Array ClassFile := #[]
  /-- Method names in use. -/
  taken : Std.HashSet String := Std.HashSet.ofList BlockName.reserved
  /-- The number from which to look for the name of the next block. -/
  nextBlock : Nat := 0
  deriving Inhabited

abbrev Compile := EStateM CompileError State

namespace Env

def library (env : Env) : SupportLibrary := env.settings.library

/-- A draft of a method that records source lines if the settings ask for it. -/
def method (env : Env) (locals : List VerificationType) : Draft :=
  Draft.method locals env.settings.lineNumbers

/-- The local variables of the script's method: the unit's object, the receiver, the context. -/
def scriptLocals (env : Env) : List VerificationType :=
  [.object env.unit.internal, .object env.library.object, .object env.library.context]

/-- The local variables of a block's method. -/
def blockLocals (env : Env) : List VerificationType :=
  [.object env.library.object, .object env.library.object, .object env.library.context]

end Env

def State.initial (env : Env) : State := { current := { draft := env.method env.scriptLocals } }

/-- The body of a method without open regions; faults are reported at the span given. -/
def MethodFrame.finish (f : MethodFrame) (span : Span) : Except CompileError MethodBody :=
  match f.regions with
  | _ :: _ => .error (.internal .regionLeftOpen span)
  | [] =>
    match f.draft.finish with
    | .ok body => .ok body
    | .error fault => .error (.ofDraft fault span)

namespace Compile

def emit (step : Draft.Step) : Compile Unit :=
  modify fun s => { s with current := { s.current with draft := s.current.draft.step step } }

def openLine (span : Span) : Compile Unit := emit (.line span.line)

def stackDepth : Compile Nat := return (← get).current.draft.stack.depth

def isReachable : Compile Bool := return (← get).current.draft.reachable

def nextLabel : Compile Label := return (← get).current.draft.nextLabel

def newLabel : Compile Label := do
  let label ← nextLabel
  emit .label
  return label

def ofExcept {α : Type} : Except CompileError α → Compile α
  | .ok a => pure a
  | .error e => throw e

def enterMethod (draft : Draft) : Compile Unit :=
  modify fun s => { s with current := { draft }, suspended := s.current :: s.suspended }

/-- Finishes the current method and goes on with the one around it. -/
def leaveMethod (span : Span) : Compile MethodBody := fun s =>
  match s.suspended with
  | [] => .error (.internal .noEnclosingMethod span) s
  | outer :: rest =>
    match s.current.finish span with
    | .ok body => .ok body { s with current := outer, suspended := rest }
    | .error e => .error e { s with current := outer, suspended := rest }

def pushScope : Compile Unit := modify fun s => { s with scopes := s.scopes.push }

def popScope : Compile Unit := modify fun s => { s with scopes := s.scopes.pop }

def declare (kind : SlotKind) (ident : Ident) : Compile Unit := fun s =>
  match s.scopes.conflict? ident.name ident.span with
  | some e => .error e s
  | none => .ok () { s with scopes := s.scopes.bind ident.name kind ident.span }

def resolve (name : String) : Compile Resolution := return (← get).scopes.resolve name

def openSend (span : Span) : Compile Unit :=
  modify fun s => { s with pending := { span } :: s.pending }

def closeSend : Compile Unit := modify fun s => { s with pending := s.pending.tail }

/-- Changes the innermost keyword message. -/
def modifySend (f : PendingSend → PendingSend) : Compile Unit :=
  modify fun s => { s with pending := s.pending.modifyHead f }

/-- A free method name for a block, which takes it. -/
def nameBlock : Compile String := fun s =>
  let symbol := s.pending.head?.bind PendingSend.symbol
  match BlockName.choose s.taken s.nextBlock symbol with
  | (name, next) => .ok name { s with taken := s.taken.insert name, nextBlock := next }

end Compile
end SmalltalkJvm
