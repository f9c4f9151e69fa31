import SmalltalkJvm.Jvm.Opcode
import SmalltalkJvm.Jvm.VerificationType

/-! # Symbolic method bodies

Instructions name their operands: members and classes by text, branch targets by label. Two of them
produce no code: `mark` places a label, `line` opens a source line. A method body is a list of
instructions with its exception entries and with the stack at each branch or handler target.
-/

namespace SmalltalkJvm

/-- A place in an instruction list, fixed when the code is laid out. -/
structure Label where
  index : Nat
  deriving DecidableEq, Repr, Inhabited, Hashable

/-- A field or method of a class. -/
structure MemberRef where
  owner : String
  name : String
  descriptor : String
  deriving DecidableEq, Repr, Inhabited, Hashable

inductive HandleKind where
  | getField | getStatic | putField | putStatic
  | invokeVirtual | invokeStatic | invokeSpecial | newInvokeSpecial | invokeInterface
  deriving DecidableEq, Repr, Inhabited, Hashable

def HandleKind.tag : HandleKind → UInt8
  | getField => 1 | getStatic => 2 | putField => 3 | putStatic => 4
  | invokeVirtual => 5 | invokeStatic => 6 | invokeSpecial => 7 | newInvokeSpecial => 8
  | invokeInterface => 9

structure MethodHandle where
  kind : HandleKind
  target : MemberRef
  deriving DecidableEq, Repr, Inhabited, Hashable

/-- A constant handed to a bootstrap method. -/
inductive BootstrapArgument where
  | methodType (descriptor : String)
  | handle (handle : MethodHandle)
  deriving DecidableEq, Repr, Inhabited, Hashable

/-- A call whose target is chosen by a bootstrap method on first use. -/
structure CallSite where
  name : String
  descriptor : String
  bootstrap : MethodHandle
  arguments : List BootstrapArgument
  deriving DecidableEq, Repr, Inhabited, Hashable

/-- A constant that one instruction pushes from the pool. -/
inductive Loadable where
  | string (text : String)
  | int (value : Int32)
  deriving DecidableEq, Repr, Inhabited

inductive Instruction where
  /-- No operands. -/
  | plain (op : Opcode)
  /-- An immediate integer. -/
  | push (op : Opcode) (value : Int16)
  /-- A pool constant, in the short or the long form. -/
  | constant (value : Loadable)
  /-- A local variable, in the short, the one-byte or the wide form. -/
  | slot (op : Opcode) (index : UInt16)
  | classRef (op : Opcode) (name : String)
  | field (op : Opcode) (member : MemberRef)
  | invoke (op : Opcode) (member : MemberRef)
  | dynamic (site : CallSite)
  | jump (op : Opcode) (target : Label)
  | mark (label : Label)
  | line (number : Nat)
  deriving DecidableEq, Repr, Inhabited

/-- Whether the instruction produces code. -/
def Instruction.isCode : Instruction → Bool
  | mark _ | line _ => false
  | _ => true

/-- From `start` up to but not including `stop`, an exception of the class caught goes to
`handler`; without a class, every exception does. -/
structure ExceptionEntry where
  start : Label
  stop : Label
  handler : Label
  catches : Option String
  deriving DecidableEq, Repr, Inhabited

/-- A branch or handler target and the operand stack there, bottom first. -/
structure Frame where
  label : Label
  stack : List VerificationType
  deriving DecidableEq, Repr, Inhabited

structure MethodBody where
  instructions : List Instruction
  /-- The first entry that covers an instruction and matches wins. -/
  handlers : List ExceptionEntry := []
  frames : List Frame := []
  /-- Local variables on entry, which every frame repeats. -/
  locals : List VerificationType := []
  maxStack : UInt16 := 0
  maxLocals : UInt16 := 0
  deriving DecidableEq, Repr, Inhabited

namespace MethodBody

/-- The instructions that produce code. -/
def code (b : MethodBody) : List Instruction := b.instructions.filter Instruction.isCode

/-- Source lines in the order they are opened. -/
def lines (b : MethodBody) : List Nat :=
  b.instructions.filterMap fun
    | .line number => some number
    | _ => none

/-- Invoked methods as owner, dot, name. -/
def calls (b : MethodBody) : List String :=
  b.instructions.filterMap fun
    | .invoke _ m => some s!"{m.owner}.{m.name}"
    | _ => none

end MethodBody
end SmalltalkJvm
