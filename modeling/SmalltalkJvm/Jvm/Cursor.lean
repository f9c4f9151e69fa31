import SmalltalkJvm.Jvm.Word

/-! # Reading class-file bytes

A cursor holds the bytes still to be read and how many have been. A reader moves it forward or
fails; input that ends early is reported at the position where the bytes asked for should start.
`Advances n` says that a reader that succeeds has used up at least `n` bytes.
-/

namespace SmalltalkJvm

inductive FormatFault where
  | truncated (position : Nat)
  | badMagic (found : Nat)
  | unknownTag (tag index : Nat)
  | badConstant (index : Nat)
  | unknownOpcode (byte : UInt8) (offset : Nat)
  deriving DecidableEq, Repr, Inhabited

/-- A number as eight hexadecimal digits. -/
def hex8 (n : Nat) : String :=
  let digits := Nat.toDigits 16 n
  String.ofList (List.replicate (8 - digits.length) '0' ++ digits)

def FormatFault.text : FormatFault → String
  | truncated position => s!"class file truncated at byte {position}"
  | badMagic found => s!"bad magic number 0x{hex8 found}"
  | unknownTag tag index => s!"unknown constant pool tag {tag} at index {index}"
  | badConstant index => s!"constant pool index {index} is invalid here"
  | unknownOpcode byte offset => s!"unsupported opcode {byte.toNat} at offset {offset}"

structure Cursor where
  rest : List UInt8
  position : Nat := 0
  deriving DecidableEq, Repr, Inhabited

abbrev Reader := StateT Cursor (Except FormatFault)

namespace Reader

/-- The next `n` bytes. -/
def take (n : Nat) : Reader (List UInt8) := fun c =>
  let front := c.rest.take n
  if front.length = n then .ok (front, ⟨c.rest.drop n, c.position + n⟩)
  else .error (.truncated c.position)

def skip (n : Nat) : Reader Unit := do
  let _ ← take n

def u8 : Reader Nat := return Word.ofBytes (← take 1)

def u16 : Reader Nat := return Word.ofBytes (← take 2)

def u32 : Reader Nat := return Word.ofBytes (← take 4)

/-- Runs a reader `n` times. -/
def times {α : Type} (r : Reader α) : Nat → Reader (List α) := go []
where
  go (found : List α) : Nat → Reader (List α)
    | 0 => pure found.reverse
    | n + 1 => do
      let a ← r
      go (a :: found) n

/-- A 16-bit count and as many items. -/
def counted {α : Type} (r : Reader α) : Reader (List α) := do
  let n ← u16
  times r n

/-- The bytes of an attribute: a 32-bit length and as many bytes. -/
def block : Reader (List UInt8) := do
  let n ← u32
  take n

/-- A reader for bytes of their own, whose positions start at 0. -/
def within {α : Type} (bytes : List UInt8) (r : Reader α) : Except FormatFault α :=
  (r ⟨bytes, 0⟩).map Prod.fst

def Advances {α : Type} (n : Nat) (r : Reader α) : Prop :=
  ∀ c a c', r c = .ok (a, c') → c'.rest.length + n ≤ c.rest.length

theorem advances_take (n : Nat) : Advances n (take n) := by
  intro c a c' h
  simp only [take] at h
  split at h
  · rename_i full
    cases h
    rw [List.length_take] at full
    simp only [List.length_drop]
    omega
  · cases h

theorem advances_pure {α : Type} (a : α) : Advances 0 (pure a : Reader α) := by
  intro c b c' h
  cases h
  exact Nat.le_refl _

theorem advances_throw {α : Type} (n : Nat) (fault : FormatFault) :
    Advances n (throw fault : Reader α) := by
  intro c a c' h
  cases h

theorem Advances.bind {α β : Type} {n k : Nat} {r : Reader α} {f : α → Reader β}
    (hr : Advances n r) (hf : ∀ a, Advances k (f a)) : Advances (n + k) (r >>= f) := by
  intro c b c' h
  simp only [Bind.bind, StateT.bind, Except.bind] at h
  split at h
  · cases h
  · rename_i pair found
    have first := hr _ _ _ found
    have second := hf _ _ _ _ h
    omega

theorem Advances.weaken {α : Type} {n k : Nat} {r : Reader α} (h : Advances n r) (le : k ≤ n) :
    Advances k r := by
  intro c a c' found
  have := h c a c' found
  omega

end Reader
end SmalltalkJvm
