import SmalltalkJvm.Jvm.Layout

/-! # Stack maps

A stack map lists the frames of a method by rising offset, one for each offset. The first frame
gives its offset, each later one its distance from the offset after the frame before it. A frame
with an empty stack or a single entry has a short form that keeps the local variables of the frame
before it; since every frame repeats the variables on entry, that is always right.
-/

namespace SmalltalkJvm.StackMap

/-- A stack, bottom first, at a code offset. -/
abbrev PlacedStack := Nat × List VerificationType

def typeBytes (l : Layout) : VerificationType → Link (List UInt8)
  | .top => pure [0]
  | .int => pure [1]
  | .float => pure [2]
  | .double => pure [3]
  | .long => pure [4]
  | .null => pure [5]
  | .uninitializedThis => pure [6]
  | .object name => do
    let index ← ConstantPool.classRef name
    return 7 :: Word.bytes2 index
  | .uninitialized creation =>
    match l.offsetOf? creation with
    | some pc => pure (8 :: Word.bytes2 pc)
    | none => throw (.missingCreation creation)

/-- The types one after the other. -/
def typesBytes (l : Layout) (types : List VerificationType) : Link (List UInt8) := do
  let parts ← types.mapM (typeBytes l)
  return parts.flatten

def frameBytes (l : Layout) (locals : List VerificationType) :
    PlacedStack → Link (List UInt8)
  | (delta, []) => pure (if delta < 64 then [delta.toUInt8] else 251 :: Word.bytes2 delta)
  | (delta, [entry]) => do
    let entry ← typeBytes l entry
    return (if delta < 64 then [(64 + delta).toUInt8] else 247 :: Word.bytes2 delta) ++ entry
  | (delta, stack) => do
    let localTypes ← typesBytes l locals
    let stackTypes ← typesBytes l stack
    return 255 :: Word.bytes2 delta ++ Word.bytes2 locals.length ++ localTypes ++
      Word.bytes2 stack.length ++ stackTypes

def place (l : Layout) (method : String) (f : Frame) : Except AssemblyFault PlacedStack := do
  let pc ← l.offset method f.label
  return (pc, f.stack)

/-- Adds a frame to those of lower offset, newest first, unless its offset has one. -/
def addDistinct (frames : List PlacedStack) (f : PlacedStack) : List PlacedStack :=
  match frames with
  | g :: _ => if g.1 = f.1 then frames else f :: frames
  | [] => [f]

/-- Frames by rising offset; of several at one offset the first stays. -/
def arrange (frames : List PlacedStack) : List PlacedStack :=
  ((frames.mergeSort fun f g => f.1 ≤ g.1).foldl addDistinct []).reverse

/-- Offsets as distances, from the offset after the frame before, if there is one. -/
def distances : Option Nat → List PlacedStack → List PlacedStack
  | _, [] => []
  | none, (pc, stack) :: rest => (pc, stack) :: distances (some pc) rest
  | some before, (pc, stack) :: rest => (pc - before - 1, stack) :: distances (some pc) rest

/-- The number of frames and the frames. -/
def bytes (l : Layout) (locals : List VerificationType) (frames : List PlacedStack) :
    Link (List UInt8) := do
  let parts ← (distances none frames).mapM (frameBytes l locals)
  return Word.bytes2 frames.length ++ parts.flatten

end SmalltalkJvm.StackMap
