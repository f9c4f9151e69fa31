import SmalltalkJvm.Jvm.ConstantPool

/-! # Linking

Linking replaces the texts in an instruction by numbers in the constant pool of its class. After it
every instruction has a size. Call sites share an entry of the class's bootstrap table when their
bootstrap method and its arguments are the same.
-/

namespace SmalltalkJvm

/-- A bootstrap method and its arguments, as numbers in the pool. -/
structure Bootstrap where
  handle : Nat
  arguments : List Nat
  deriving DecidableEq, Repr, Inhabited, Hashable

/-- What the methods of one class share. -/
structure Linker where
  pool : ConstantPool := .empty
  bootstraps : Numbering Bootstrap := .empty
  deriving Inhabited

abbrev Link := EStateM AssemblyFault Linker

namespace Link

def ofRequest {α : Type} (request : ConstantPool.Request α) : Link α := fun linker =>
  match linker with
  | ⟨pool, bootstraps⟩ =>
    match request pool with
    | .ok a pool => .ok a ⟨pool, bootstraps⟩
    | .error fault pool => .error fault ⟨pool, bootstraps⟩

instance : MonadLift ConstantPool.Request Link := ⟨ofRequest⟩

def ofExcept {α : Type} : Except AssemblyFault α → Link α
  | .ok a => pure a
  | .error fault => throw fault

/-- The place of an entry in the bootstrap table, which it joins if it is new. Places are 16 bits
wide. -/
def bootstrapIndex (entry : Bootstrap) : Link Nat := fun linker =>
  match linker with
  | ⟨pool, bootstraps⟩ =>
    match absent : bootstraps.place? entry with
    | some i => .ok (i % 65536) ⟨pool, bootstraps⟩
    | none => .ok (bootstraps.size % 65536) ⟨pool, bootstraps.push entry absent⟩

def argument : BootstrapArgument → ConstantPool.Request Nat
  | .methodType descriptor => ConstantPool.methodType descriptor
  | .handle handle => ConstantPool.handle handle

def callSite (site : CallSite) : Link Nat := do
  let handle ← ConstantPool.handle site.bootstrap
  let arguments ← site.arguments.mapM fun a => (argument a : Link Nat)
  let bootstrap ← bootstrapIndex ⟨handle, arguments⟩
  ConstantPool.invokeDynamic bootstrap site.name site.descriptor

end Link

/-- An instruction whose constants are numbers in the pool. -/
inductive Linked where
  | plain (op : Opcode)
  | push (op : Opcode) (value : Int16)
  | constant (index : Nat)
  | slot (op : Opcode) (index : UInt16)
  /-- An opcode and the number of a class, a field or a class method. -/
  | pooled (op : Opcode) (index : Nat)
  /-- An interface call, which also tells how many slots its arguments take. -/
  | interfaceCall (index : Nat) (descriptor : String)
  | dynamic (index : Nat)
  | jump (op : Opcode) (target : Label)
  | mark (label : Label)
  | line (number : Nat)
  deriving DecidableEq, Repr, Inhabited

/-- The bytes an instruction takes. -/
def Linked.size : Linked → Nat
  | plain _ => 1
  | push op _ => if op = .bipush then 2 else 3
  | constant index => if index < 256 then 2 else 3
  | slot _ index => if index.toNat < 4 then 1 else if index.toNat < 256 then 2 else 4
  | pooled .. | jump .. => 3
  | interfaceCall .. | dynamic _ => 5
  | mark _ | line _ => 0

def Instruction.link : Instruction → Link Linked
  | plain op => pure (.plain op)
  | push op value => pure (.push op value)
  | constant (.string text) => return .constant (← ConstantPool.string text)
  | constant (.int value) => return .constant (← ConstantPool.integer value)
  | slot op index => pure (.slot op index)
  | classRef op name => return .pooled op (← ConstantPool.classRef name)
  | field op member => return .pooled op (← ConstantPool.fieldRef member)
  | invoke op member =>
    if op = .invokeinterface then
      return .interfaceCall (← ConstantPool.interfaceMethodRef member) member.descriptor
    else
      return .pooled op (← ConstantPool.methodRef member)
  | dynamic site => return .dynamic (← Link.callSite site)
  | jump op target => pure (.jump op target)
  | mark label => pure (.mark label)
  | line number => pure (.line number)

end SmalltalkJvm
