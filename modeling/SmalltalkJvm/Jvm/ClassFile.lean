import SmalltalkJvm.Jvm.ClassName
import SmalltalkJvm.Jvm.StackMap

/-! # Class files

A class as its methods' symbolic bodies, and the bytes of its class file, version 52. The pool is
complete only when all methods are assembled, so everything after it is assembled first.
-/

namespace SmalltalkJvm

namespace Access

def isPublic : UInt16 := 0x0001
def isPrivate : UInt16 := 0x0002
def isProtected : UInt16 := 0x0004
def isStatic : UInt16 := 0x0008
def isFinal : UInt16 := 0x0010
def isSuper : UInt16 := 0x0020
def isSynthetic : UInt16 := 0x1000

end Access

structure Method where
  access : UInt16
  name : String
  descriptor : String
  body : MethodBody
  deriving DecidableEq, Repr, Inhabited

structure InnerClass where
  inner : String
  outer : String
  name : String
  access : UInt16
  deriving DecidableEq, Repr, Inhabited

/-- The nested class through which bootstrap methods look up members. -/
def InnerClass.lookup : InnerClass where
  inner := "java/lang/invoke/MethodHandles$Lookup"
  outer := "java/lang/invoke/MethodHandles"
  name := "Lookup"
  access := Access.isPublic ||| Access.isStatic ||| Access.isFinal

structure ClassFile where
  access : UInt16 := Access.isPublic ||| Access.isSuper
  /-- Names separate packages by slashes. -/
  name : String
  superName : String
  sourceFile : Option String := none
  methods : List Method := []
  innerClasses : List InnerClass := []
  deriving DecidableEq, Repr, Inhabited

def majorVersion : Nat := 52

/-- The first method of a name. -/
def ClassFile.method? (c : ClassFile) (name : String) : Option Method :=
  c.methods.find? fun m => m.name == name

/-- The name with dots between packages. -/
def ClassFile.binaryName (c : ClassFile) : String := dotted c.name

/-- An attribute: its name in the pool, the length of its body, the body. -/
def attributeBytes (name : Nat) (body : List UInt8) : List UInt8 :=
  Word.bytes2 name ++ Word.bytes4 body.length ++ body

def lineAttribute (lines : List (Nat × Nat)) : Link (List (List UInt8)) := do
  if lines.isEmpty then return []
  let name ← ConstantPool.utf8 "LineNumberTable"
  let rows := lines.flatMap fun (start, number) => Word.bytes2 start ++ Word.bytes2 number
  return [attributeBytes name (Word.bytes2 lines.length ++ rows)]

def stackMapAttribute (l : Layout) (m : Method) : Link (List (List UInt8)) := do
  if m.body.frames.isEmpty then return []
  let placed ← Link.ofExcept (m.body.frames.mapM (StackMap.place l m.name))
  let name ← ConstantPool.utf8 "StackMapTable"
  let table ← StackMap.bytes l m.body.locals (StackMap.arrange placed)
  return [attributeBytes name table]

/-- The body of a method's code attribute. Code is 1 to 65535 bytes long. -/
def Method.codeBytes (m : Method) : Link (List UInt8) := do
  let linked ← m.body.instructions.mapM Instruction.link
  let layout := Layout.ofList linked
  if layout.size = 0 ∨ AssemblyFault.limit < layout.size then
    throw (.codeLength m.name layout.size)
  let code ← Link.ofExcept (layout.code m.name)
  let handlers ← m.body.handlers.mapM (ExceptionEntry.bytes layout m.name)
  let lines ← lineAttribute layout.lineTable
  let stackMap ← stackMapAttribute layout m
  let attributes := lines ++ stackMap
  return Word.bytes2 m.body.maxStack.toNat ++ Word.bytes2 m.body.maxLocals.toNat ++
    Word.bytes4 code.length ++ code ++
    Word.bytes2 m.body.handlers.length ++ handlers.flatten ++
    Word.bytes2 attributes.length ++ attributes.flatten

def Method.bytes (m : Method) : Link (List UInt8) := do
  let name ← ConstantPool.utf8 m.name
  let descriptor ← ConstantPool.utf8 m.descriptor
  let codeName ← ConstantPool.utf8 "Code"
  let code ← m.codeBytes
  return Word.bytes2 m.access.toNat ++ Word.bytes2 name ++ Word.bytes2 descriptor ++
    Word.bytes2 1 ++ attributeBytes codeName code

def InnerClass.bytes (c : InnerClass) : Link (List UInt8) := do
  let inner ← ConstantPool.classRef c.inner
  let outer ← ConstantPool.classRef c.outer
  let name ← ConstantPool.utf8 c.name
  return Word.bytes2 inner ++ Word.bytes2 outer ++ Word.bytes2 name ++ Word.bytes2 c.access.toNat

def Bootstrap.bytes (b : Bootstrap) : List UInt8 :=
  Word.bytes2 b.handle ++ Word.bytes2 b.arguments.length ++ b.arguments.flatMap Word.bytes2

def sourceAttribute : Option String → Link (List (List UInt8))
  | none => pure []
  | some source => do
    let name ← ConstantPool.utf8 "SourceFile"
    let source ← ConstantPool.utf8 source
    return [attributeBytes name (Word.bytes2 source)]

def innerClassesAttribute (classes : List InnerClass) : Link (List (List UInt8)) := do
  if classes.isEmpty then return []
  let name ← ConstantPool.utf8 "InnerClasses"
  let rows ← classes.mapM InnerClass.bytes
  return [attributeBytes name (Word.bytes2 classes.length ++ rows.flatten)]

/-- The bootstrap table as it stands, if any call site uses it. -/
def bootstrapAttribute : Link (List (List UInt8)) := do
  let table := (← get).bootstraps.toList
  if table.isEmpty then return []
  let name ← ConstantPool.utf8 "BootstrapMethods"
  return [attributeBytes name (Word.bytes2 table.length ++ table.flatMap Bootstrap.bytes)]

/-- Everything of a class file after its pool. -/
def ClassFile.bodyBytes (c : ClassFile) : Link (List UInt8) := do
  let thisClass ← ConstantPool.classRef c.name
  let superClass ← ConstantPool.classRef c.superName
  let methods ← c.methods.mapM Method.bytes
  let source ← sourceAttribute c.sourceFile
  let inner ← innerClassesAttribute c.innerClasses
  let bootstraps ← bootstrapAttribute
  let attributes := source ++ inner ++ bootstraps
  return Word.bytes2 c.access.toNat ++ Word.bytes2 thisClass ++ Word.bytes2 superClass ++
    Word.bytes2 0 ++ Word.bytes2 0 ++
    Word.bytes2 c.methods.length ++ methods.flatten ++
    Word.bytes2 attributes.length ++ attributes.flatten

def magic : Nat := 0xCAFEBABE

/-- The class file. -/
def ClassFile.bytes (c : ClassFile) : Except AssemblyFault (List UInt8) :=
  match c.bodyBytes {} with
  | .ok body linker =>
    .ok (Word.bytes4 magic ++ Word.bytes2 0 ++ Word.bytes2 majorVersion ++
      Word.bytes2 linker.pool.count ++ linker.pool.bytes ++ body)
  | .error fault _ => .error fault

end SmalltalkJvm
