import SmalltalkJvm.Source.Span
import SmalltalkJvm.Jvm.Instruction

/-! # Why a class cannot be written

The class-file format limits the constant pool, its texts, the code of a method, branch distances
and line numbers. The remaining faults are those of a hand-made body: a label or a `new` that is
not there, or an interface call with a malformed descriptor.
-/

namespace SmalltalkJvm

inductive AssemblyFault where
  | poolOverflow
  | textTooLong
  | codeLength (method : String) (size : Nat)
  | unplacedLabel (label : Label) (method : String)
  | branchRange (distance : Int) (method : String)
  | lineRange (number : Nat) (method : String)
  | missingCreation (creation : Nat)
  | descriptor (error : DescriptorError)
  deriving DecidableEq, Repr, Inhabited

namespace AssemblyFault

/-- Code offsets and line numbers are written in 16 bits. -/
def limit : Nat := 65535

def text : AssemblyFault → String
  | poolOverflow => "constant pool overflow"
  | textTooLong => "string constant longer than 65535 bytes"
  | codeLength method size => s!"method '{method}' has {size} bytes of code, expected 1..={limit}"
  | unplacedLabel label method => s!"label {label.index} in '{method}' is never placed"
  | branchRange distance method => s!"branch offset {distance} out of range in '{method}'"
  | lineRange number method =>
    s!"line {number} in '{method}' exceeds the line table limit of {limit}"
  | missingCreation creation => s!"'new' at instruction {creation} is missing"
  | descriptor error => error.message

/-- Only a line that is too large has a place in the source: itself. -/
def span : AssemblyFault → Span
  | lineRange number _ => Span.ofLine number
  | _ => {}

end AssemblyFault
end SmalltalkJvm
