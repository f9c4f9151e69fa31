import SmalltalkJvm.Jvm.AssemblyFault
import SmalltalkJvm.Jvm.ModifiedUtf8
import SmalltalkJvm.Jvm.Numbering
import SmalltalkJvm.Jvm.Word

/-! # Constant pool

Constants of a class, numbered from 1 in the order of their first request. A constant refers to
others by their numbers, so it stands after them. Asking again for a constant gives the number it
has.

A request that fails keeps the constants that it had added on the way.
-/

namespace SmalltalkJvm

inductive Constant where
  | utf8 (text : String)
  | integer (value : Int32)
  | classRef (name : Nat)
  | string (text : Nat)
  | fieldRef (owner nameAndType : Nat)
  | methodRef (owner nameAndType : Nat)
  | interfaceMethodRef (owner nameAndType : Nat)
  | nameAndType (name descriptor : Nat)
  | methodHandle (kind : UInt8) (reference : Nat)
  | methodType (descriptor : Nat)
  | invokeDynamic (bootstrap nameAndType : Nat)
  deriving DecidableEq, Repr, Inhabited, Hashable

namespace Constant

def tag : Constant → UInt8
  | utf8 _ => 1
  | integer _ => 3
  | classRef _ => 7
  | string _ => 8
  | fieldRef .. => 9
  | methodRef .. => 10
  | interfaceMethodRef .. => 11
  | nameAndType .. => 12
  | methodHandle .. => 15
  | methodType _ => 16
  | invokeDynamic .. => 18

/-- The bytes after the tag. -/
def payload : Constant → List UInt8
  | utf8 text => let bytes := ModifiedUtf8.encode text; Word.bytes2 bytes.length ++ bytes
  | integer value => Word.bytes4 value.toUInt32.toNat
  | classRef i | string i | methodType i => Word.bytes2 i
  | fieldRef i j | methodRef i j | interfaceMethodRef i j | nameAndType i j
  | invokeDynamic i j => Word.bytes2 i ++ Word.bytes2 j
  | methodHandle kind reference => kind :: Word.bytes2 reference

def bytes (c : Constant) : List UInt8 := c.tag :: c.payload

end Constant

/-- The constants of a class, fewer than 65535. -/
structure ConstantPool where
  table : Numbering Constant
  size_lt : table.size < 65535

namespace ConstantPool

def empty : ConstantPool where
  table := .empty
  size_lt := by decide

instance : Inhabited ConstantPool := ⟨empty⟩

/-- The count a class file gives: one more than the number of entries. -/
def count (p : ConstantPool) : Nat := p.table.size + 1

def get? (p : ConstantPool) (i : Nat) : Option Constant :=
  if i = 0 then none else p.table.get? (i - 1)

/-- A request to the pool: the number of a constant, or why there is none. -/
abbrev Request := EStateM AssemblyFault ConstantPool

/-- The number of a constant, which joins the pool if it is new and there is room: no class file
has more than 65534 constants. -/
def intern (c : Constant) : Request Nat := fun p =>
  match p with
  | ⟨table, size_lt⟩ =>
    match absent : table.place? c with
    | some i => .ok (i + 1) ⟨table, size_lt⟩
    | none =>
      if room : table.size + 1 < 65535 then
        .ok (table.size + 1) ⟨table.push c absent, by simpa using room⟩
      else .error .poolOverflow ⟨table, size_lt⟩

def utf8 (text : String) : Request Nat :=
  if ModifiedUtf8.size text ≤ 65535 then intern (.utf8 text) else throw .textTooLong

def integer (value : Int32) : Request Nat := intern (.integer value)

def classRef (name : String) : Request Nat := do
  let name ← utf8 name
  intern (.classRef name)

def string (text : String) : Request Nat := do
  let text ← utf8 text
  intern (.string text)

def nameAndType (name descriptor : String) : Request Nat := do
  let name ← utf8 name
  let descriptor ← utf8 descriptor
  intern (.nameAndType name descriptor)

def fieldRef (m : MemberRef) : Request Nat := do
  let owner ← classRef m.owner
  let nameAndType ← nameAndType m.name m.descriptor
  intern (.fieldRef owner nameAndType)

def methodRef (m : MemberRef) : Request Nat := do
  let owner ← classRef m.owner
  let nameAndType ← nameAndType m.name m.descriptor
  intern (.methodRef owner nameAndType)

def interfaceMethodRef (m : MemberRef) : Request Nat := do
  let owner ← classRef m.owner
  let nameAndType ← nameAndType m.name m.descriptor
  intern (.interfaceMethodRef owner nameAndType)

def methodType (descriptor : String) : Request Nat := do
  let descriptor ← utf8 descriptor
  intern (.methodType descriptor)

def invokeDynamic (bootstrap : Nat) (name descriptor : String) : Request Nat := do
  let nameAndType ← nameAndType name descriptor
  intern (.invokeDynamic bootstrap nameAndType)

/-- A handle refers to a field, an interface method or a class method as its kind asks. -/
def handle (h : MethodHandle) : Request Nat := do
  let reference ← match h.kind with
    | .getField | .getStatic | .putField | .putStatic => fieldRef h.target
    | .invokeInterface => interfaceMethodRef h.target
    | _ => methodRef h.target
  intern (.methodHandle h.kind.tag reference)

/-- All entries as a class file holds them. -/
def bytes (p : ConstantPool) : List UInt8 := p.table.toList.flatMap Constant.bytes

end ConstantPool
end SmalltalkJvm
