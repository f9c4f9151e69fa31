import SmalltalkJvm.Jvm.Descriptor

/-! # Verification types

What the class-file verifier knows of a stack entry or a local variable. An object created but not
yet constructed is known by the index of its `new` in the instruction list.
-/

namespace SmalltalkJvm

inductive VerificationType where
  | top | int | float | long | double | null
  | uninitializedThis
  | object (name : String)
  | uninitialized (creation : Nat)
  deriving DecidableEq, Repr, Inhabited

namespace VerificationType

/-- Stack or local slots a value of the type takes. -/
def slots : VerificationType → Nat
  | long | double => 2
  | _ => 1

def isWide (t : VerificationType) : Bool := t.slots == 2

def ofFieldType : FieldType → VerificationType
  | .int => int
  | .float => float
  | .long => long
  | .double => double
  | .reference name => object name

end VerificationType

/-- Slots that a list of values takes. -/
def totalSlots (types : List VerificationType) : Nat :=
  types.foldr (fun t total => t.slots + total) 0

@[simp] theorem totalSlots_nil : totalSlots [] = 0 := rfl

@[simp] theorem totalSlots_cons (t : VerificationType) (ts : List VerificationType) :
    totalSlots (t :: ts) = t.slots + totalSlots ts := rfl

end SmalltalkJvm
