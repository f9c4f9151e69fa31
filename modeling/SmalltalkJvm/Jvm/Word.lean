/-! # Big-endian words

Class files hold their numbers most significant byte first. Writing keeps the low bits of a number
that is too large for its field; reading back gives the number modulo the field's range.
-/

namespace SmalltalkJvm.Word

/-- The low 16 bits of a number. -/
def bytes2 (n : Nat) : List UInt8 := [(n / 256).toUInt8, n.toUInt8]

/-- The low 32 bits of a number. -/
def bytes4 (n : Nat) : List UInt8 :=
  [(n / 16777216).toUInt8, (n / 65536).toUInt8, (n / 256).toUInt8, n.toUInt8]

/-- The number a run of bytes denotes. -/
def ofBytes (bytes : List UInt8) : Nat := bytes.foldl (fun n b => n * 256 + b.toNat) 0

@[simp] theorem length_bytes2 (n : Nat) : (bytes2 n).length = 2 := rfl

@[simp] theorem length_bytes4 (n : Nat) : (bytes4 n).length = 4 := rfl

theorem ofBytes_bytes2 (n : Nat) : ofBytes (bytes2 n) = n % 65536 := by
  simp [ofBytes, bytes2]
  omega

theorem ofBytes_bytes4 (n : Nat) : ofBytes (bytes4 n) = n % 4294967296 := by
  simp [ofBytes, bytes4]
  omega

end SmalltalkJvm.Word
