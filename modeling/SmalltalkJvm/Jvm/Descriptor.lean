/-! # Field and method descriptors

A field type is written as one of the letters `Z B C S I F J D`, as a class name between `L` and
`;`, or as `[` before another field type. A method descriptor is a bracketed run of field types and
a result, which is `V` or a field type. The parameter text ends at the first closing bracket, so no
parameter's class name can hold one.

All integral letters denote the machine's `int`; an array type is the reference named by its whole
text.
-/

namespace SmalltalkJvm

inductive FieldType where
  | int | float | long | double
  | reference (name : String)
  deriving DecidableEq, Repr, Inhabited

namespace FieldType

def isReference : FieldType → Bool
  | reference _ => true
  | _ => false

/-- Stack or local slots a value of the type takes. -/
def slots : FieldType → Nat
  | long | double => 2
  | _ => 1

end FieldType

/-- Why a descriptor is malformed. -/
inductive DescriptorFault where
  | noOpening | noClosing | trailingReturn | trailing | unexpectedEnd
  | unterminatedName | emptyName | unknownLetter
  deriving DecidableEq, Repr, Inhabited

def DescriptorFault.text : DescriptorFault → String
  | noOpening => "expected '('"
  | noClosing => "missing ')'"
  | trailingReturn => "trailing characters after return type"
  | trailing => "trailing characters"
  | unexpectedEnd => "unexpected end"
  | unterminatedName => "unterminated class name"
  | emptyName => "empty class name"
  | unknownLetter => "unknown type character"

/-- A malformed descriptor, as a whole, with what is wrong with it. -/
structure DescriptorError where
  descriptor : String
  fault : DescriptorFault
  deriving DecidableEq, Repr, Inhabited

def DescriptorError.message (e : DescriptorError) : String :=
  s!"malformed descriptor '{e.descriptor}': {e.fault.text}"

structure MethodDescriptor where
  parameters : List FieldType
  /-- The result type, absent for `V`. -/
  result : Option FieldType
  deriving DecidableEq, Repr, Inhabited

def MethodDescriptor.parameterSlots (d : MethodDescriptor) : Nat :=
  d.parameters.foldr (fun t total => t.slots + total) 0

namespace Descriptor

/-- A type without array brackets, with the text left after it. -/
def scalar : List Char → Except DescriptorFault (FieldType × List Char)
  | [] => .error .unexpectedEnd
  | 'Z' :: rest | 'B' :: rest | 'C' :: rest | 'S' :: rest | 'I' :: rest => .ok (.int, rest)
  | 'F' :: rest => .ok (.float, rest)
  | 'J' :: rest => .ok (.long, rest)
  | 'D' :: rest => .ok (.double, rest)
  | 'L' :: rest =>
    match rest.dropWhile (· != ';') with
    | [] => .error .unterminatedName
    | _ :: after =>
      match rest.takeWhile (· != ';') with
      | [] => .error .emptyName
      | name => .ok (.reference (String.ofList name), after)
  | _ :: _ => .error .unknownLetter

/-- The first type of a text, with the text left after it. -/
def fieldType (text : List Char) : Except DescriptorFault (FieldType × List Char) :=
  match text.takeWhile (· == '[') with
  | [] => scalar text
  | _ :: _ =>
    match scalar (text.dropWhile (· == '[')) with
    | .error fault => .error fault
    | .ok (_, after) =>
      .ok (.reference (String.ofList (text.take (text.length - after.length))), after)

theorem length_dropWhile_lt {p : Char → Bool} {text after : List Char} {c : Char}
    (h : text.dropWhile p = c :: after) : after.length < text.length := by
  have := (List.dropWhile_suffix (l := text) p).length_le
  rw [h, List.length_cons] at this
  omega

theorem scalar_length {text after : List Char} {t : FieldType} (h : scalar text = .ok (t, after)) :
    after.length < text.length := by
  unfold scalar at h
  split at h <;> try (simp at h; obtain ⟨-, rfl⟩ := h; simp)
  all_goals try (cases h)
  rename_i rest
  split at h
  · cases h
  · rename_i c tail drop
    split at h
    · cases h
    · simp only [Except.ok.injEq, Prod.mk.injEq] at h
      obtain ⟨-, rfl⟩ := h
      have := length_dropWhile_lt drop
      simp only [List.length_cons]
      omega

/-- Reading a type uses up text. -/
theorem fieldType_length {text after : List Char} {t : FieldType}
    (h : fieldType text = .ok (t, after)) : after.length < text.length := by
  unfold fieldType at h
  split at h
  · exact scalar_length h
  · split at h
    · cases h
    · rename_i found
      simp only [Except.ok.injEq, Prod.mk.injEq] at h
      obtain ⟨-, rfl⟩ := h
      have := scalar_length found
      have := (List.dropWhile_suffix (l := text) (· == '[')).length_le
      omega

/-- The types that a text runs together. -/
def fieldTypes (text : List Char) : Except DescriptorFault (List FieldType) :=
  match text with
  | [] => .ok []
  | c :: rest =>
    match found : fieldType (c :: rest) with
    | .error fault => .error fault
    | .ok (t, after) =>
      have := fieldType_length found
      match fieldTypes after with
      | .error fault => .error fault
      | .ok ts => .ok (t :: ts)
termination_by text.length
decreasing_by assumption

/-- Exactly one type; anything after it is the given fault. -/
def single (text : List Char) (leftover : DescriptorFault) : Except DescriptorFault FieldType :=
  match fieldType text with
  | .error fault => .error fault
  | .ok (t, []) => .ok t
  | .ok (_, _ :: _) => .error leftover

def method : List Char → Except DescriptorFault MethodDescriptor
  | '(' :: rest =>
    match rest.dropWhile (· != ')') with
    | [] => .error .noClosing
    | _ :: result =>
      match fieldTypes (rest.takeWhile (· != ')')) with
      | .error fault => .error fault
      | .ok parameters =>
        if result = ['V'] then .ok ⟨parameters, none⟩
        else
          match single result .trailingReturn with
          | .error fault => .error fault
          | .ok t => .ok ⟨parameters, some t⟩
  | _ => .error .noOpening

end Descriptor

def FieldType.parse (text : String) : Except DescriptorError FieldType :=
  (Descriptor.single text.toList .trailing).mapError (⟨text, ·⟩)

def MethodDescriptor.parse (text : String) : Except DescriptorError MethodDescriptor :=
  (Descriptor.method text.toList).mapError (⟨text, ·⟩)

end SmalltalkJvm
