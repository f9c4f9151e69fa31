import Mathlib.Logic.Relation
import SmalltalkJvm.Jvm.Instruction

/-! # Running a method body

A machine for the bodies of generated methods. It goes from instruction to instruction with a stack
of values; calls, call sites and fields are the business of the support library, which may change
the world and may throw. An exception goes to the first entry that covers the instruction and
catches it, or else leaves the method.

The local variables are the method's parameters and stay as they are. Instructions that only the
methods without source text have are left out: on them the machine has no step.
-/

namespace SmalltalkJvm

/-- What generated code runs on: values `V` and a world `W`. Exceptions are values. -/
structure Runtime (V W : Type) where
  text : String → V
  number : Int32 → V
  field : MemberRef → EStateM V W V
  /-- A call with its operands, the receiver first if there is one. The value of a method without a
  result is dropped. -/
  call : Opcode → MemberRef → List V → EStateM V W V
  link : CallSite → List V → EStateM V W V
  isInstance : String → V → Bool

def Opcode.constant? : Opcode → Option Int32
  | iconstM1 => some (-1)
  | iconst0 => some 0
  | iconst1 => some 1
  | iconst2 => some 2
  | iconst3 => some 3
  | iconst4 => some 4
  | iconst5 => some 5
  | _ => none

section

variable {V W : Type} (rt : Runtime V W) (locals : List V)

/-- Takes the operands of a call off the stack, the first of them deepest, and pushes its value. -/
def callWith (operands : Nat) (returns : Bool) (call : List V → EStateM V W V) (stack : List V) :
    Option (EStateM V W (List V)) :=
  if operands ≤ stack.length then
    some ((fun v => if returns then v :: stack.drop operands else stack.drop operands) <$>
      call (stack.take operands).reverse)
  else none

/-- What an instruction that neither branches nor returns does to the stack; none if it has too
little there. -/
def Instruction.exec : Instruction → List V → Option (EStateM V W (List V))
  | .plain .dup, v :: stack => some (pure (v :: v :: stack))
  | .plain .pop, _ :: stack => some (pure stack)
  | .plain op, stack => op.constant?.map fun n => pure (rt.number n :: stack)
  | .push _ n, stack => some (pure (rt.number n.toInt32 :: stack))
  | .constant (.int n), stack => some (pure (rt.number n :: stack))
  | .constant (.string text), stack => some (pure (rt.text text :: stack))
  | .slot .aload index, stack => locals[index.toNat]?.map fun v => pure (v :: stack)
  | .field .getstatic member, stack => some ((· :: stack) <$> rt.field member)
  | .invoke op method, stack =>
    (MethodDescriptor.parse method.descriptor).toOption.bind fun d =>
      callWith (d.parameters.length + if op = .invokestatic then 0 else 1) d.result.isSome
        (rt.call op method) stack
  | .dynamic site, stack =>
    (MethodDescriptor.parse site.descriptor).toOption.bind fun d =>
      callWith d.parameters.length d.result.isSome (rt.link site) stack
  | .mark _, stack | .line _, stack => some (pure stack)
  | _, _ => none

inductive Config (V W : Type) where
  | running (place : Nat) (stack : List V) (world : W)
  | throwing (place : Nat) (exception : V) (world : W)
  | returned (value : V) (world : W)
  | thrown (exception : V) (world : W)

namespace MethodBody

variable (b : MethodBody)

def place (label : Label) : Nat := b.instructions.idxOf (.mark label)

def covers (e : ExceptionEntry) (place : Nat) : Bool :=
  decide (b.place e.start ≤ place) && decide (place < b.place e.stop)

def handler? (place : Nat) (exception : V) : Option ExceptionEntry :=
  b.handlers.find? fun e => b.covers e place && e.catches.all (rt.isInstance · exception)

def step : Config V W → Option (Config V W)
  | .running place stack world =>
    match b.instructions[place]? with
    | none => none
    | some (.plain .areturn) => stack.head?.map fun v => .returned v world
    | some (.jump .goto label) => some (.running (b.place label) stack world)
    | some i =>
      (i.exec rt locals stack).map fun action =>
        match action world with
        | .ok stack world => .running (place + 1) stack world
        | .error exception world => .throwing place exception world
  | .throwing place exception world =>
    match b.handler? rt place exception with
    | some e => some (.running (b.place e.handler) [exception] world)
    | none => some (.thrown exception world)
  | .returned .. | .thrown .. => none

def Reaches : Config V W → Config V W → Prop :=
  Relation.ReflTransGen fun c c' => b.step rt locals c = some c'

/-- Run from its first instruction with nothing on the stack, the body ends as the action does: it
returns the action's value, or throws the action's exception. -/
def Computes (action : EStateM V W V) : Prop :=
  ∀ world,
    match action world with
    | .ok value world' => b.Reaches rt locals (.running 0 [] world) (.returned value world')
    | .error exception world' =>
      b.Reaches rt locals (.running 0 [] world) (.thrown exception world')

end MethodBody
end
end SmalltalkJvm
