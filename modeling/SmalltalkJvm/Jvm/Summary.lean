import SmalltalkJvm.Jvm.Cursor
import SmalltalkJvm.Jvm.ModifiedUtf8
import SmalltalkJvm.Jvm.Opcode

/-! # Summaries of class files

A summary is what can be read off a class file without verifying its code: names, methods, code
arrays, exception tables, lines, the names of attributes and the string constants. Reading follows
the declared lengths, and an attribute's body is read on its own.
-/

namespace SmalltalkJvm

/-- A pool entry, as far as a summary needs it. -/
inductive PoolEntry where
  | utf8 (text : String)
  | classRef (name : Nat)
  | string (text : Nat)
  | other
  /-- Place 0, and the second place of a constant of eight bytes. -/
  | unusable
  deriving DecidableEq, Repr, Inhabited

/-- Pool entries by number. -/
abbrev PoolTable := Array PoolEntry

namespace PoolTable

def utf8 (pool : PoolTable) (index : Nat) : Except FormatFault String :=
  match pool[index]? with
  | some (.utf8 text) => .ok text
  | _ => .error (.badConstant index)

def className (pool : PoolTable) (index : Nat) : Except FormatFault String :=
  match pool[index]? with
  | some (.classRef name) => pool.utf8 name
  | _ => .error (.badConstant index)

/-- The string constants whose text is in the pool. -/
def strings (pool : PoolTable) : List String :=
  pool.toList.filterMap fun
    | .string text => (pool.utf8 text).toOption
    | _ => none

end PoolTable

namespace Reader

/-- What follows the tag of a constant, as the entries it takes in the table. -/
def poolPayload (index : UInt16) (tag : Nat) : Reader (List PoolEntry) :=
  match tag with
  | 1 => do
    let n ← u16
    let bytes ← take n
    return [.utf8 (ModifiedUtf8.decode bytes)]
  | 7 => return [.classRef (← u16)]
  | 8 => return [.string (← u16)]
  | 5 | 6 => do
    skip 8
    return [.other, .unusable]
  | 3 | 4 | 9 | 10 | 11 | 12 | 17 | 18 => do
    skip 4
    return [.other]
  | 15 => do
    skip 3
    return [.other]
  | 16 | 19 | 20 => do
    skip 2
    return [.other]
  | _ => throw (.unknownTag tag index.toNat)

/-- One constant. -/
def poolEntry (index : UInt16) : Reader (List PoolEntry) := do
  let tag ← u8
  poolPayload index tag

theorem advances_skip (n : Nat) : Advances n (skip n) :=
  (advances_take n).bind fun _ => advances_pure _

theorem advances_u8 : Advances 1 u8 := (advances_take 1).bind fun _ => advances_pure _

theorem advances_u16 : Advances 2 u16 := (advances_take 2).bind fun _ => advances_pure _

theorem advances_poolPayload (index : UInt16) (tag : Nat) : Advances 0 (poolPayload index tag) := by
  unfold poolPayload
  split
  · exact (advances_u16.bind fun n => (advances_take n).weaken (Nat.zero_le n) |>.bind
      fun _ => advances_pure _).weaken (Nat.zero_le _)
  · exact (advances_u16.bind fun _ => advances_pure _).weaken (Nat.zero_le _)
  · exact (advances_u16.bind fun _ => advances_pure _).weaken (Nat.zero_le _)
  all_goals first
    | exact ((advances_skip _).bind fun _ => advances_pure _).weaken (Nat.zero_le _)
    | exact advances_throw _ _

theorem advances_poolEntry (index : UInt16) : Advances 1 (poolEntry index) :=
  advances_u8.bind fun tag => advances_poolPayload index tag

/-- Constants from an index up to a count. The index has 16 bits, as the count does. -/
def poolEntries (count index : UInt16) (table : PoolTable) (c : Cursor) :
    Except FormatFault (PoolTable × Cursor) :=
  if index < count then
    match found : poolEntry index c with
    | .error fault => .error fault
    | .ok (entries, c') =>
      have := advances_poolEntry index c entries c' found
      poolEntries count (index + entries.length.toUInt16) (table ++ entries) c'
  else .ok (table, c)
termination_by c.rest.length

def poolTable : Reader PoolTable := do
  let count ← u16
  poolEntries count.toUInt16 1 #[.unusable]

end Reader

/-- A row of an exception table; without a class it catches everything. -/
structure ExceptionRow where
  start : Nat
  stop : Nat
  handler : Nat
  catches : Option String
  deriving DecidableEq, Repr, Inhabited

structure CodeSummary where
  maxStack : Nat
  maxLocals : Nat
  code : List UInt8
  exceptions : List ExceptionRow
  /-- Names of the attributes of the code. -/
  attributes : List String
  /-- Offsets and the source lines that start there. -/
  lines : List (Nat × Nat)
  /-- Number of stack map frames. -/
  frames : Nat
  deriving DecidableEq, Repr, Inhabited

structure MethodSummary where
  access : Nat
  name : String
  descriptor : String
  code : Option CodeSummary
  deriving DecidableEq, Repr, Inhabited

structure Summary where
  major : Nat
  access : Nat
  name : String
  superName : String
  methods : List MethodSummary
  /-- Names of the attributes of the class. -/
  attributes : List String
  sourceFile : Option String
  /-- Number of bootstrap table entries. -/
  bootstrapMethods : Nat
  strings : List String
  deriving DecidableEq, Repr, Inhabited

namespace Reader

/-- An attribute: its name and its body. -/
def namedBlock (pool : PoolTable) : Reader (String × List UInt8) := do
  let index ← u16
  let name ← pool.utf8 index
  let body ← block
  return (name, body)

def exceptionRow (pool : PoolTable) : Reader ExceptionRow := do
  let start ← u16
  let stop ← u16
  let handler ← u16
  let caught ← u16
  let catches ← if caught = 0 then pure none else some <$> pool.className caught
  return ⟨start, stop, handler, catches⟩

def lineRow : Reader (Nat × Nat) := do
  let start ← u16
  let number ← u16
  return (start, number)

/-- What one attribute of a code attribute adds to the summary. -/
def codeAttribute (pool : PoolTable) : Reader (String × List (Nat × Nat) × Option Nat) := do
  let (name, body) ← namedBlock pool
  if name = "LineNumberTable" then
    let lines ← within body (counted lineRow)
    return (name, lines, none)
  else if name = "StackMapTable" then
    let frames ← within body u16
    return (name, [], some frames)
  else
    return (name, [], none)

/-- The last of several values, if there is any. -/
def latest {α : Type} (values : List (Option α)) : Option α :=
  values.foldl (fun found value => value <|> found) none

def code (pool : PoolTable) : Reader CodeSummary := do
  let maxStack ← u16
  let maxLocals ← u16
  let code ← block
  let exceptions ← counted (exceptionRow pool)
  let attributes ← counted (codeAttribute pool)
  return {
    maxStack, maxLocals, code, exceptions
    attributes := attributes.map fun a => a.1
    lines := attributes.flatMap fun a => a.2.1
    frames := (latest (attributes.map fun a => a.2.2)).getD 0 }

/-- An attribute of a method; of these only the code is read. -/
def methodAttribute (pool : PoolTable) : Reader (Option CodeSummary) := do
  let (name, body) ← namedBlock pool
  if name = "Code" then some <$> within body (code pool) else return none

def method (pool : PoolTable) : Reader MethodSummary := do
  let access ← u16
  let nameIndex ← u16
  let name ← pool.utf8 nameIndex
  let descriptorIndex ← u16
  let descriptor ← pool.utf8 descriptorIndex
  let attributes ← counted (methodAttribute pool)
  return { access, name, descriptor, code := latest attributes }

def skipAttribute : Reader Unit := do
  skip 2
  let _ ← block

def skipField : Reader Unit := do
  skip 6
  let _ ← counted skipAttribute

/-- What one attribute of a class adds to the summary: its name, a source file, a number of
bootstrap methods. -/
def classAttribute (pool : PoolTable) : Reader (String × Option String × Option Nat) := do
  let (name, body) ← namedBlock pool
  if name = "SourceFile" ∧ 2 ≤ body.length then
    let source ← pool.utf8 (Word.ofBytes (body.take 2))
    return (name, some source, none)
  else if name = "BootstrapMethods" ∧ 2 ≤ body.length then
    return (name, none, some (Word.ofBytes (body.take 2)))
  else
    return (name, none, none)

def summary : Reader Summary := do
  let magic ← u32
  if magic ≠ 0xCAFEBABE then throw (.badMagic magic)
  skip 2
  let major ← u16
  let pool ← poolTable
  let access ← u16
  let nameIndex ← u16
  let name ← pool.className nameIndex
  let superIndex ← u16
  let superName ← pool.className superIndex
  let interfaces ← u16
  skip (interfaces * 2)
  let _ ← counted skipField
  let methods ← counted (method pool)
  let attributes ← counted (classAttribute pool)
  return {
    major, access, name, superName, methods
    attributes := attributes.map fun a => a.1
    sourceFile := latest (attributes.map fun a => a.2.1)
    bootstrapMethods := (latest (attributes.map fun a => a.2.2)).getD 0
    strings := pool.strings }

end Reader

def Summary.parse (bytes : List UInt8) : Except FormatFault Summary :=
  Reader.within bytes Reader.summary

/-- The first method of a name. -/
def Summary.method? (s : Summary) (name : String) : Option MethodSummary :=
  s.methods.find? fun m => m.name == name

/-- The opcodes of a code array from an offset on. Operands are skipped; a wide instruction counts
as the opcode that it widens. -/
def walkOpcodes (offset : Nat) (found : Array Opcode) (code : List UInt8) :
    Except FormatFault (Array Opcode) :=
  match code with
  | [] => .ok found
  | byte :: rest =>
    match Opcode.ofByte? byte with
    | none => .error (.unknownOpcode byte offset)
    | some .wide =>
      match rest with
      | [] => .error (.truncated (offset + 1))
      | inner :: operands =>
        match Opcode.ofByte? inner with
        | none => .error (.unknownOpcode inner (offset + 1))
        | some op => walkOpcodes (offset + 4) (found.push op) (operands.drop 2)
    | some op =>
      walkOpcodes (offset + 1 + op.operandBytes) (found.push op) (rest.drop op.operandBytes)
termination_by code.length
decreasing_by all_goals simp only [List.length_drop, List.length_cons]; omega

def opcodes (code : List UInt8) : Except FormatFault (List Opcode) :=
  (walkOpcodes 0 #[] code).map Array.toList

end SmalltalkJvm
