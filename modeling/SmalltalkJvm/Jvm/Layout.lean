import SmalltalkJvm.Jvm.Linking

/-! # Code layout

The layout of a method gives each of its instructions an offset, the sum of the sizes before it,
and each label the offset where it was placed last. With it the bytes of the code, the exception
table and the line table can be written.
-/

namespace SmalltalkJvm

structure Layout where
  /-- Instructions with their offsets. -/
  placed : Array (Nat × Linked) := #[]
  size : Nat := 0
  labels : Std.HashMap Label Nat := ∅
  deriving Inhabited

namespace Layout

def add (l : Layout) (i : Linked) : Layout where
  placed := l.placed.push (l.size, i)
  size := l.size + i.size
  labels :=
    match i with
    | .mark label => l.labels.insert label l.size
    | _ => l.labels

def ofList (code : List Linked) : Layout := code.foldl add {}

/-- The offset of a label, in code of the method named. -/
def offset (l : Layout) (method : String) (label : Label) : Except AssemblyFault Nat :=
  match l.labels[label]? with
  | some pc => .ok pc
  | none => .error (.unplacedLabel label method)

/-- The offset of the instruction at a place in the list. -/
def offsetOf? (l : Layout) (place : Nat) : Option Nat := l.placed[place]?.map Prod.fst

end Layout

/-- A local variable access: the first four have opcodes of their own, the others up to 255 take
a byte, and wider ones the `wide` form. -/
def slotBytes (op : Opcode) (index : UInt16) : List UInt8 :=
  if index.toNat < 4 then
    [(if op = .astore then Opcode.astore0.byte else Opcode.aload0.byte) + index.toUInt8]
  else if index.toNat < 256 then [op.byte, index.toUInt8]
  else Opcode.wide.byte :: op.byte :: Word.bytes2 index.toNat

/-- The bytes of an instruction at an offset. A branch goes at most 32767 bytes forward and 32768
back, and a line number has at most 16 bits. -/
def Linked.bytes (l : Layout) (method : String) (pc : Nat) :
    Linked → Except AssemblyFault (List UInt8)
  | plain op => .ok [op.byte]
  | push op value =>
    if op = .bipush then .ok [op.byte, value.toUInt16.toUInt8]
    else .ok (op.byte :: Word.bytes2 value.toUInt16.toNat)
  | constant index =>
    if index < 256 then .ok [Opcode.ldc.byte, index.toUInt8]
    else .ok (Opcode.ldcW.byte :: Word.bytes2 index)
  | slot op index => .ok (slotBytes op index)
  | pooled op index => .ok (op.byte :: Word.bytes2 index)
  | interfaceCall index descriptor =>
    match MethodDescriptor.parse descriptor with
    | .ok parsed =>
      .ok (Opcode.invokeinterface.byte :: Word.bytes2 index ++
        [(1 + parsed.parameterSlots).toUInt8, 0])
    | .error e => .error (.descriptor e)
  | dynamic index => .ok (Opcode.invokedynamic.byte :: Word.bytes2 index ++ [0, 0])
  | jump op target =>
    match l.offset method target with
    | .ok destination =>
      let distance : Int := destination - pc
      if -32768 ≤ distance ∧ distance ≤ 32767 then
        .ok (op.byte :: Word.bytes2 (distance % 65536).toNat)
      else .error (.branchRange distance method)
    | .error fault => .error fault
  | mark _ => .ok []
  | line number =>
    if number ≤ AssemblyFault.limit then .ok [] else .error (.lineRange number method)

namespace Layout

/-- The code array. -/
def code (l : Layout) (method : String) : Except AssemblyFault (List UInt8) := do
  let parts ← l.placed.toList.mapM fun (pc, i) => i.bytes l method pc
  return parts.flatten

/-- Notes the line opened at an offset, newest first; of two at one offset the later stays. -/
def noteLine (lines : List (Nat × Nat)) : Nat × Linked → List (Nat × Nat)
  | (pc, .line number) =>
    match lines with
    | opened :: rest =>
      if opened.1 = pc then (pc, number) :: rest else (pc, number) :: opened :: rest
    | [] => [(pc, number)]
  | _ => lines

/-- Offsets and the lines that start there. A line opened after the last instruction has no code
and is left out. -/
def lineTable (l : Layout) : List (Nat × Nat) :=
  (l.placed.toList.foldl noteLine []).reverse.filter fun entry => entry.1 < l.size

end Layout

/-- An exception table row; class number 0 catches everything. -/
def ExceptionEntry.bytes (l : Layout) (method : String) (e : ExceptionEntry) :
    Link (List UInt8) := do
  let start ← Link.ofExcept (l.offset method e.start)
  let stop ← Link.ofExcept (l.offset method e.stop)
  let handler ← Link.ofExcept (l.offset method e.handler)
  let caught ← match e.catches with
    | some name => ConstantPool.classRef name
    | none => pure 0
  return Word.bytes2 start ++ Word.bytes2 stop ++ Word.bytes2 handler ++ Word.bytes2 caught

end SmalltalkJvm
