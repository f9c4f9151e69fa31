/-! # Opcodes

The instructions of the virtual machine that generated code uses, with their byte, their mnemonic
and the number of operand bytes that follow. `Opcode.ofByte?` inverts `Opcode.byte`.
-/

namespace SmalltalkJvm

inductive Opcode where
  | nop | aconstNull
  | iconstM1 | iconst0 | iconst1 | iconst2 | iconst3 | iconst4 | iconst5
  | bipush | sipush | ldc | ldcW
  | aload | aload0 | aload1 | aload2 | aload3
  | astore | astore0 | astore1 | astore2 | astore3
  | pop | pop2 | dup | dupX1 | swap
  | goto | areturn | returnVoid | getstatic
  | invokevirtual | invokespecial | invokestatic | invokeinterface | invokedynamic
  | new | athrow | checkcast | wide | gotoW
  deriving DecidableEq, Repr, Inhabited, Hashable

namespace Opcode

def all : List Opcode :=
  [nop, aconstNull, iconstM1, iconst0, iconst1, iconst2, iconst3, iconst4, iconst5,
    bipush, sipush, ldc, ldcW, aload, aload0, aload1, aload2, aload3,
    astore, astore0, astore1, astore2, astore3, pop, pop2, dup, dupX1, swap,
    goto, areturn, returnVoid, getstatic,
    invokevirtual, invokespecial, invokestatic, invokeinterface, invokedynamic,
    new, athrow, checkcast, wide, gotoW]

def byte : Opcode → UInt8
  | nop => 0 | aconstNull => 1
  | iconstM1 => 2 | iconst0 => 3 | iconst1 => 4 | iconst2 => 5
  | iconst3 => 6 | iconst4 => 7 | iconst5 => 8
  | bipush => 16 | sipush => 17 | ldc => 18 | ldcW => 19
  | aload => 25 | aload0 => 42 | aload1 => 43 | aload2 => 44 | aload3 => 45
  | astore => 58 | astore0 => 75 | astore1 => 76 | astore2 => 77 | astore3 => 78
  | pop => 87 | pop2 => 88 | dup => 89 | dupX1 => 90 | swap => 95
  | goto => 167 | areturn => 176 | returnVoid => 177 | getstatic => 178
  | invokevirtual => 182 | invokespecial => 183 | invokestatic => 184
  | invokeinterface => 185 | invokedynamic => 186
  | new => 187 | athrow => 191 | checkcast => 192 | wide => 196 | gotoW => 200

def ofByte? (b : UInt8) : Option Opcode := all.find? fun op => op.byte == b

def mnemonic : Opcode → String
  | nop => "nop" | aconstNull => "aconst_null"
  | iconstM1 => "iconst_m1" | iconst0 => "iconst_0" | iconst1 => "iconst_1"
  | iconst2 => "iconst_2" | iconst3 => "iconst_3" | iconst4 => "iconst_4" | iconst5 => "iconst_5"
  | bipush => "bipush" | sipush => "sipush" | ldc => "ldc" | ldcW => "ldc_w"
  | aload => "aload" | aload0 => "aload_0" | aload1 => "aload_1" | aload2 => "aload_2"
  | aload3 => "aload_3"
  | astore => "astore" | astore0 => "astore_0" | astore1 => "astore_1" | astore2 => "astore_2"
  | astore3 => "astore_3"
  | pop => "pop" | pop2 => "pop2" | dup => "dup" | dupX1 => "dup_x1" | swap => "swap"
  | goto => "goto" | areturn => "areturn" | returnVoid => "return" | getstatic => "getstatic"
  | invokevirtual => "invokevirtual" | invokespecial => "invokespecial"
  | invokestatic => "invokestatic" | invokeinterface => "invokeinterface"
  | invokedynamic => "invokedynamic"
  | new => "new" | athrow => "athrow" | checkcast => "checkcast" | wide => "wide"
  | gotoW => "goto_w"

def ofMnemonic? (name : String) : Option Opcode := all.find? fun op => op.mnemonic == name

/-- Control never runs on to the instruction after one of these. -/
def endsFlow : Opcode → Bool
  | goto | gotoW | areturn | returnVoid | athrow => true
  | _ => false

/-- Operand bytes that follow the opcode. -/
def operandBytes : Opcode → Nat
  | bipush | ldc | aload | astore => 1
  | sipush | ldcW | goto | getstatic | invokevirtual | invokespecial | invokestatic | new
  | checkcast => 2
  | invokeinterface | invokedynamic | gotoW => 4
  | _ => 0

/-- The one-byte push of a small integer. -/
def iconst? (value : Int) : Option Opcode :=
  if value = -1 then some iconstM1
  else if value = 0 then some iconst0
  else if value = 1 then some iconst1
  else if value = 2 then some iconst2
  else if value = 3 then some iconst3
  else if value = 4 then some iconst4
  else if value = 5 then some iconst5
  else none

theorem ofByte?_byte (op : Opcode) : ofByte? op.byte = some op := by cases op <;> decide

end Opcode
end SmalltalkJvm
