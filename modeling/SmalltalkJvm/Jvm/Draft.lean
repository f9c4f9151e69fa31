import SmalltalkJvm.Jvm.Instruction
import SmalltalkJvm.Jvm.OperandStack

/-! # Method drafts

A draft is a method body under construction. Each step adds at most one instruction and simulates
what it does to the operand stack, which gives the largest stack and the stack at every label.

Steps after a `goto`, a return or a throw are dropped until a label is marked whose stack is known,
because something branches to it. So no finished body has code that cannot be reached, and every
reachable place after such an instruction has a frame.

The first fault of a draft is kept and reported when it is finished; steps after it go on as well
as they can.
-/

namespace SmalltalkJvm

inductive DraftFault where
  | stackUnderflow (op : Opcode)
  | malformedDescriptor (descriptor : String)
  | undefinedLocal (slot : UInt16)
  | missingOperands (op : Opcode)
  | unplacedLabel (label : Label)
  | fallsOffEnd
  deriving DecidableEq, Repr, Inhabited

def DraftFault.text : DraftFault → String
  | stackUnderflow op => s!"operand stack underflow at '{op.mnemonic}'"
  | malformedDescriptor descriptor => s!"malformed descriptor '{descriptor}'"
  | undefinedLocal slot => s!"local variable {slot.toNat} is not defined"
  | missingOperands op => s!"opcode '{op.mnemonic}' needs operands"
  | unplacedLabel label => s!"label {label.index} is never marked"
  | fallsOffEnd => "control reaches the end of the method"

/-- What a draft knows of a label. -/
structure LabelRecord where
  /-- The stack there, top first, once something branches to it or it is placed. -/
  stack : Option (List VerificationType) := none
  placed : Bool := false
  /-- Whether it is the target of a branch or a handler entry, and so needs a frame. -/
  targeted : Bool := false
  deriving DecidableEq, Repr, Inhabited

structure Draft where
  code : Array Instruction := #[]
  stack : OperandStack := .empty
  /-- The most slots that the stack has taken so far. -/
  peak : Nat := 0
  entryLocals : List VerificationType
  locals : List VerificationType
  labels : Array LabelRecord := #[]
  handlers : Array ExceptionEntry := #[]
  /-- Whether control can reach the next instruction. -/
  reachable : Bool := true
  /-- The source line opened last, unless control has just come from elsewhere. -/
  line : Option Nat := none
  recordsLines : Bool := true
  /-- The class of a constructor's receiver. -/
  thisClass : Option String := none
  fault : Option DraftFault := none
  deriving Inhabited

namespace Draft

/-- A method whose local variables are the receiver, if it has one, and the parameters. -/
def method (locals : List VerificationType) (recordsLines : Bool := true) : Draft :=
  { entryLocals := locals, locals, recordsLines }

def constructor (thisClass : String) (parameters : List VerificationType)
    (recordsLines : Bool := true) : Draft :=
  { method (.uninitializedThis :: parameters) recordsLines with thisClass := some thisClass }

def fail (d : Draft) (fault : DraftFault) : Draft :=
  { d with fault := d.fault <|> some fault }

def append (d : Draft) (i : Instruction) : Draft := { d with code := d.code.push i }

def setStack (d : Draft) (stack : OperandStack) : Draft :=
  { d with stack, peak := max d.peak stack.slots }

def push (d : Draft) (t : VerificationType) : Draft := d.setStack (d.stack.push t)

/-- Takes the top entry for an instruction; without one, the draft has a fault. -/
def pop (d : Draft) (op : Opcode) : Option VerificationType × Draft :=
  match d.stack.pop? with
  | some (t, stack) => (some t, { d with stack })
  | none => (none, d.fail (.stackUnderflow op))

def popMany (d : Draft) (op : Opcode) : Nat → Draft
  | 0 => d
  | n + 1 => popMany (d.pop op).2 op n

/-- Opens a source line, unless it is open already. -/
def openLine (d : Draft) (number : Nat) : Draft :=
  if d.recordsLines && d.reachable && d.line != some number then
    { d.append (.line number) with line := some number }
  else d

/-- Whether an instruction has neither operands nor a form of its own among the steps. -/
def standsAlone : Opcode → Bool
  | .nop | .aconstNull
  | .iconstM1 | .iconst0 | .iconst1 | .iconst2 | .iconst3 | .iconst4 | .iconst5
  | .pop | .pop2 | .dup | .dupX1 | .swap | .areturn | .returnVoid | .athrow => true
  | _ => false

/-- What an instruction that stands alone does to the stack. -/
def operate (d : Draft) (op : Opcode) : Draft :=
  match op with
  | .aconstNull => d.push .null
  | .iconstM1 | .iconst0 | .iconst1 | .iconst2 | .iconst3 | .iconst4 | .iconst5 => d.push .int
  | .pop | .areturn | .athrow => (d.pop op).2
  | .pop2 =>
    match d.pop op with
    | (some t, d) => if t.isWide then d else (d.pop op).2
    | (none, d) => d
  | .dup =>
    match d.pop op with
    | (some t, d) => (d.push t).push t
    | (none, d) => d
  | .dupX1 =>
    match d.pop op with
    | (first, d) =>
      match first, d.pop op with
      | some a, (some b, d) => ((d.push a).push b).push a
      | _, (_, d) => d
  | .swap =>
    match d.pop op with
    | (first, d) =>
      match first, d.pop op with
      | some a, (some b, d) => (d.push a).push b
      | _, (_, d) => d
  | _ => d

def plain (d : Draft) (op : Opcode) : Draft :=
  if d.reachable then
    if standsAlone op then { (d.operate op).append (.plain op) with reachable := !op.endsFlow }
    else d.fail (.missingOperands op)
  else d

/-- Drops the top value, whatever its width. -/
def discard (d : Draft) : Draft :=
  match d.stack.top? with
  | some t => d.plain (if t.isWide then .pop2 else .pop)
  | none => d.plain .pop

/-- The shortest instruction that pushes an integer. -/
def intInstruction (value : Int32) : Instruction :=
  match Opcode.iconst? value.toInt with
  | some op => .plain op
  | none =>
    if -128 ≤ value.toInt ∧ value.toInt ≤ 127 then .push .bipush value.toInt16
    else if -32768 ≤ value.toInt ∧ value.toInt ≤ 32767 then .push .sipush value.toInt16
    else .constant (.int value)

def pushInt (d : Draft) (value : Int32) : Draft :=
  if d.reachable then (d.append (intInstruction value)).push .int else d

def pushString (d : Draft) (text : String) : Draft :=
  if d.reachable then (d.append (.constant (.string text))).push (.object "java/lang/String")
  else d

def load (d : Draft) (slot : UInt16) : Draft :=
  if d.reachable then
    match d.locals[slot.toNat]? with
    | some t => (d.append (.slot .aload slot)).push t
    | none => d.fail (.undefinedLocal slot)
  else d

/-- Sets a local variable; those between the known ones and a new one are unusable. -/
def setLocal (d : Draft) (index : Nat) (t : VerificationType) : Draft :=
  let absent := List.replicate (index + 1 - d.locals.length) VerificationType.top
  { d with locals := (d.locals ++ absent).set index t }

def store (d : Draft) (slot : UInt16) : Draft :=
  if d.reachable then
    match d.pop .astore with
    | (some t, d) => (d.setLocal slot.toNat t).append (.slot .astore slot)
    | (none, d) => d
  else d

def create (d : Draft) (className : String) : Draft :=
  if d.reachable then
    let creation := d.code.size
    (d.append (.classRef .new className)).push (.uninitialized creation)
  else d

/-- A field of malformed type is a fault, but its instruction stays. -/
def getStatic (d : Draft) (field : MemberRef) : Draft :=
  if d.reachable then
    match FieldType.parse field.descriptor with
    | .ok t => (d.append (.field .getstatic field)).push (.ofFieldType t)
    | .error _ => (d.fail (.malformedDescriptor field.descriptor)).append (.field .getstatic field)
  else d

/-- Constructing an object changes every copy of its reference. -/
def complete (d : Draft) (old new : VerificationType) : Draft :=
  { d with
    stack := d.stack.replace old new
    locals := d.locals.map fun t => if t = old then new else t }

def construct (d : Draft) (receiver : Option VerificationType) (owner : String) : Draft :=
  match receiver with
  | some .uninitializedThis =>
    let thisClass := d.thisClass.getD owner
    d.complete .uninitializedThis (.object thisClass)
  | some (.uninitialized creation) => d.complete (.uninitialized creation) (.object owner)
  | _ => d

def pushResult (d : Draft) : Option FieldType → Draft
  | some t => d.push (.ofFieldType t)
  | none => d

/-- Takes the receiver of a call, if it has one; a constructor call completes it. -/
def popReceiver (d : Draft) (op : Opcode) (method : MemberRef) : Draft :=
  if op = .invokestatic then d
  else
    match d.pop op with
    | (receiver, d) =>
      if op = .invokespecial ∧ method.name = "<init>" then d.construct receiver method.owner else d

def invoke (d : Draft) (op : Opcode) (method : MemberRef) : Draft :=
  if d.reachable then
    match MethodDescriptor.parse method.descriptor with
    | .ok descriptor =>
      let d := (d.popMany op descriptor.parameters.length).popReceiver op method
      (d.pushResult descriptor.result).append (.invoke op method)
    | .error _ => d.fail (.malformedDescriptor method.descriptor)
  else d

def invokeDynamic (d : Draft) (site : CallSite) : Draft :=
  if d.reachable then
    match MethodDescriptor.parse site.descriptor with
    | .ok descriptor =>
      let d := d.popMany .invokedynamic descriptor.parameters.length
      (d.pushResult descriptor.result).append (.dynamic site)
    | .error _ => d.fail (.malformedDescriptor site.descriptor)
  else d

/-- The next unused label. -/
def nextLabel (d : Draft) : Label := ⟨d.labels.size⟩

def addLabel (d : Draft) : Draft := { d with labels := d.labels.push {} }

def modifyLabel (d : Draft) (label : Label) (f : LabelRecord → LabelRecord) : Draft :=
  { d with labels := d.labels.modify label.index f }

/-- The stack known at a label, top first. -/
def stackAt? (d : Draft) (label : Label) : Option (List VerificationType) :=
  d.labels[label.index]?.bind LabelRecord.stack

/-- The stack and reachability at a label that is placed here. Where control arrives from above,
the current stack is the label's; otherwise a stack known from a branch becomes current, and the
next source line is opened afresh. -/
def meet (d : Draft) (label : Label) : Draft :=
  if d.reachable then
    let stack := d.stack.entries
    d.modifyLabel label fun r => { r with stack := some stack }
  else
    match d.stackAt? label with
    | some stack => { d.setStack (.ofList stack) with reachable := true, line := none }
    | none => d

def mark (d : Draft) (label : Label) : Draft :=
  ((d.meet label).modifyLabel label fun r => { r with placed := true }).append (.mark label)

/-- A handler starts with nothing but the exception on the stack. -/
def markHandler (d : Draft) (label : Label) (exception : String) : Draft :=
  let d := d.modifyLabel label fun r =>
    { r with stack := some [.object exception], targeted := true }
  { d with reachable := false }.mark label

def goto (d : Draft) (target : Label) : Draft :=
  if d.reachable then
    let stack := d.stack.entries
    let d := d.modifyLabel target fun r =>
      { r with stack := r.stack <|> some stack, targeted := true }
    { d.append (.jump .goto target) with reachable := false }
  else d

def protect (d : Draft) (entry : ExceptionEntry) : Draft :=
  { d with handlers := d.handlers.push entry }

/-- One addition to a draft. -/
inductive Step where
  | line (number : Nat)
  | plain (op : Opcode)
  | discard
  | int (value : Int32)
  | string (text : String)
  | load (slot : UInt16)
  | store (slot : UInt16)
  | create (className : String)
  | getStatic (field : MemberRef)
  | invoke (op : Opcode) (method : MemberRef)
  | invokeDynamic (site : CallSite)
  | label
  | mark (label : Label)
  | markHandler (label : Label) (exception : String)
  | goto (target : Label)
  | protect (entry : ExceptionEntry)
  deriving DecidableEq, Repr, Inhabited

def step (d : Draft) : Step → Draft
  | .line number => d.openLine number
  | .plain op => d.plain op
  | .discard => d.discard
  | .int value => d.pushInt value
  | .string text => d.pushString text
  | .load slot => d.load slot
  | .store slot => d.store slot
  | .create className => d.create className
  | .getStatic field => d.getStatic field
  | .invoke op method => d.invoke op method
  | .invokeDynamic site => d.invokeDynamic site
  | .label => d.addLabel
  | .mark label => d.mark label
  | .markHandler label exception => d.markHandler label exception
  | .goto target => d.goto target
  | .protect entry => d.protect entry

def run (d : Draft) (steps : List Step) : Draft := steps.foldl step d

def isPlaced (d : Draft) (label : Label) : Bool :=
  (d.labels[label.index]?.map LabelRecord.placed).getD false

/-- Branch and handler targets in the order their labels were made. -/
def targets (d : Draft) : List Label :=
  d.labels.toList.zipIdx.filterMap fun (r, i) => if r.targeted then some ⟨i⟩ else none

def frames (d : Draft) : List Frame :=
  d.labels.toList.zipIdx.filterMap fun (r, i) =>
    if r.targeted then r.stack.map fun stack => ⟨⟨i⟩, stack.reverse⟩ else none

/-- Labels that have to be placed: targets, and the ends of protected ranges. -/
def requiredLabels (d : Draft) : List Label :=
  d.targets ++ d.handlers.toList.flatMap fun h => [h.start, h.stop]

/-- The finished body, if nothing went wrong, control cannot run past the last instruction and all
labels are placed. -/
def finish (d : Draft) : Except DraftFault MethodBody :=
  match d.fault with
  | some fault => .error fault
  | none =>
    if d.reachable then .error .fallsOffEnd
    else
      match d.requiredLabels.find? fun l => !d.isPlaced l with
      | some label => .error (.unplacedLabel label)
      | none =>
        .ok
          { instructions := d.code.toList
            handlers := d.handlers.toList
            frames := d.frames
            locals := d.entryLocals
            maxStack := d.peak.toUInt16
            maxLocals := (totalSlots d.locals).toUInt16 }

end Draft
end SmalltalkJvm
