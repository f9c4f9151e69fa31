import Mathlib.Data.List.Forall2
import SmalltalkJvm.Jvm.Summary

/-! # Reading back what was written

A text that is encoded and decoded again is the same text. A reader reads some bytes as a value if
it takes those bytes from the front of any input and leaves the rest; what two readers read one
after the other are the bytes of both.
-/

namespace SmalltalkJvm

namespace ModifiedUtf8

theorem not_lt_of_toNat {b : UInt8} (h : 0x80 ≤ b.toNat) : ¬b < 0x80 := by
  rw [UInt8.lt_iff_toNat_lt]
  exact Nat.not_lt.2 h

theorem unitsOfBytes_one {b : UInt8} (h : b < 0x80) (rest : List UInt8) :
    unitsOfBytes (b :: rest) = b.toNat :: unitsOfBytes rest := by
  rcases rest with _ | ⟨c, _ | ⟨d, rest⟩⟩ <;> simp [unitsOfBytes, h]

theorem unitsOfBytes_two {b : UInt8} (h : ¬b < 0x80) (htwo : leadsTwo b = true) (c : UInt8)
    (rest : List UInt8) : unitsOfBytes (b :: c :: rest) = unitOfTwo b c :: unitsOfBytes rest := by
  cases rest <;> simp [unitsOfBytes, h, htwo]

theorem unitsOfBytes_three {b : UInt8} (h : ¬b < 0x80) (htwo : leadsTwo b = false) (c d : UInt8)
    (rest : List UInt8) :
    unitsOfBytes (b :: c :: d :: rest) = unitOfThree b c d :: unitsOfBytes rest := by
  simp [unitsOfBytes, h, htwo]

/-- The bytes of one unit are read as that unit, whatever follows. -/
theorem unitsOfBytes_unitBytes {u : Nat} (h : u < 0x10000) (rest : List UInt8) :
    unitsOfBytes (unitBytes u ++ rest) = u :: unitsOfBytes rest := by
  unfold unitBytes
  split_ifs with h₁ h₂
  · have hbyte : u.toUInt8.toNat = u := UInt8.toNat_ofNat_of_lt' (show _ < 256 by omega)
    have hsmall : u.toUInt8 < 0x80 := by
      rw [UInt8.lt_iff_toNat_lt, hbyte]
      exact h₁.2
    exact (unitsOfBytes_one hsmall rest).trans (by rw [hbyte])
  · obtain ⟨lead, hlead⟩ : ∃ b, b = (0xC0 + u / 64).toUInt8 := ⟨_, rfl⟩
    obtain ⟨next, hnext⟩ : ∃ b, b = (0x80 + u % 64).toUInt8 := ⟨_, rfl⟩
    have hlead' : lead.toNat = 0xC0 + u / 64 := by
      rw [hlead, UInt8.toNat_ofNat_of_lt' (show _ < 256 by omega)]
    have hnext' : next.toNat = 0x80 + u % 64 := by
      rw [hnext, UInt8.toNat_ofNat_of_lt' (show _ < 256 by omega)]
    have htwo : leadsTwo lead = true := by
      simp only [leadsTwo, Bool.and_eq_true, decide_eq_true_eq, UInt8.le_iff_toNat_le,
        UInt8.lt_iff_toNat_lt, hlead']
      exact ⟨Nat.le_add_right _ _, by change _ < 224; omega⟩
    rw [← hlead, ← hnext]
    refine (unitsOfBytes_two (not_lt_of_toNat (by omega)) htwo next rest).trans ?_
    rw [unitOfTwo, hlead', hnext']
    congr 1
    omega
  · obtain ⟨lead, hlead⟩ : ∃ b, b = (0xE0 + u / 4096).toUInt8 := ⟨_, rfl⟩
    obtain ⟨next, hnext⟩ : ∃ b, b = (0x80 + u / 64 % 64).toUInt8 := ⟨_, rfl⟩
    obtain ⟨last, hlast⟩ : ∃ b, b = (0x80 + u % 64).toUInt8 := ⟨_, rfl⟩
    have hlead' : lead.toNat = 0xE0 + u / 4096 := by
      rw [hlead, UInt8.toNat_ofNat_of_lt' (show _ < 256 by omega)]
    have hnext' : next.toNat = 0x80 + u / 64 % 64 := by
      rw [hnext, UInt8.toNat_ofNat_of_lt' (show _ < 256 by omega)]
    have hlast' : last.toNat = 0x80 + u % 64 := by
      rw [hlast, UInt8.toNat_ofNat_of_lt' (show _ < 256 by omega)]
    have htwo : leadsTwo lead = false := by
      simp only [leadsTwo, Bool.and_eq_false_iff, decide_eq_false_iff_not, UInt8.lt_iff_toNat_lt,
        hlead']
      exact .inr (by change ¬_ < 224; omega)
    rw [← hlead, ← hnext, ← hlast]
    refine (unitsOfBytes_three (not_lt_of_toNat (by omega)) htwo next last rest).trans ?_
    rw [unitOfThree, hlead', hnext', hlast']
    congr 1
    omega

theorem unitsOfBytes_flatMap {us : List Nat} (h : ∀ u ∈ us, u < 0x10000) :
    unitsOfBytes (us.flatMap unitBytes) = us := by
  induction us with
  | nil => rfl
  | cons u us ih =>
    obtain ⟨hu, hus⟩ := List.forall_mem_cons.1 h
    rw [List.flatMap_cons, unitsOfBytes_unitBytes hu, ih hus]

/-- A character is no surrogate. -/
theorem isValid_toNat (c : Char) : c.toNat < 0xD800 ∨ 0xDFFF < c.toNat ∧ c.toNat < 0x110000 :=
  c.valid

theorem charsOfUnits_one {u : Nat} (h : isHigh u = false) (us : List Nat) :
    charsOfUnits (u :: us) = charOfUnit u :: charsOfUnits us := by
  cases us <;> simp [charsOfUnits, h]

/-- The units of a character are read as that character, whatever follows. -/
theorem charsOfUnits_charUnits (c : Char) (us : List Nat) :
    charsOfUnits (charUnits c ++ us) = c :: charsOfUnits us := by
  have hvalid := isValid_toNat c
  unfold charUnits
  split_ifs with hbasic
  · have hhigh : isHigh c.toNat = false := by
      simp [isHigh]
      omega
    have hlow : isLow c.toNat = false := by
      simp [isLow]
      omega
    refine (charsOfUnits_one hhigh us).trans ?_
    simp [charOfUnit, hhigh, hlow, Char.ofNat_toNat]
  · obtain ⟨hi, hhi⟩ : ∃ n, n = 0xD800 + (c.toNat - 0x10000) / 1024 := ⟨_, rfl⟩
    obtain ⟨lo, hlo⟩ : ∃ n, n = 0xDC00 + (c.toNat - 0x10000) % 1024 := ⟨_, rfl⟩
    have hhigh : isHigh hi = true := by
      simp [isHigh]
      omega
    have hlow : isLow lo = true := by
      simp [isLow]
      omega
    have hpair : charOfPair hi lo = c := by
      rw [charOfPair, show 0x10000 + (hi - 0xD800) * 1024 + (lo - 0xDC00) = c.toNat by omega,
        Char.ofNat_toNat]
    rw [← hhi, ← hlo]
    simp [charsOfUnits, hhigh, hlow, hpair]

theorem lt_of_mem_units {text : String} {u : Nat} (h : u ∈ units text) : u < 0x10000 := by
  obtain ⟨c, -, hu⟩ := List.mem_flatMap.1 h
  have hvalid := isValid_toNat c
  unfold charUnits at hu
  split_ifs at hu with hbasic
  · rw [List.mem_singleton.1 hu]
    exact hbasic
  · rcases List.mem_cons.1 hu with rfl | hu
    · omega
    · rw [List.mem_singleton.1 hu]
      omega

theorem charsOfUnits_flatMap (cs : List Char) : charsOfUnits (cs.flatMap charUnits) = cs := by
  induction cs with
  | nil => rfl
  | cons c cs ih => rw [List.flatMap_cons, charsOfUnits_charUnits, ih]

theorem decode_encode (text : String) : decode (encode text) = text := by
  rw [decode, encode, unitsOfBytes_flatMap fun u hu => lt_of_mem_units hu, units,
    charsOfUnits_flatMap, String.ofList_toList]

theorem length_unitBytes (u : Nat) : (unitBytes u).length = unitSize u := by
  unfold unitBytes unitSize
  split_ifs <;> rfl

theorem length_encode (text : String) : (encode text).length = size text := by
  have hfold (us : List Nat) (n : Nat) :
      us.foldl (fun n u => n + unitSize u) n = n + (us.flatMap unitBytes).length := by
    induction us generalizing n with
    | nil => rfl
    | cons u us ih => simp [ih, length_unitBytes, Nat.add_assoc]
  rw [size, hfold, Nat.zero_add, encode]

end ModifiedUtf8

namespace Reader

variable {α β : Type}

/-- A reader reads some bytes as a value, whatever follows them and wherever they stand. -/
def Reads (r : Reader α) (bytes : List UInt8) (a : α) : Prop :=
  ∀ rest position, r ⟨bytes ++ rest, position⟩ = .ok (a, ⟨rest, position + bytes.length⟩)

theorem reads_pure (a : α) : Reads (pure a) [] a := fun _ _ => rfl

theorem Reads.bind {r : Reader α} {f : α → Reader β} {first second : List UInt8} {a : α} {b : β}
    (hr : r.Reads first a) (hf : (f a).Reads second b) : (r >>= f).Reads (first ++ second) b := by
  intro rest position
  rw [List.append_assoc]
  simp only [Bind.bind, StateT.bind, Except.bind, hr (second ++ rest) position]
  rw [hf rest, List.length_append, Nat.add_assoc]

/-- What is known already takes no bytes. -/
theorem reads_known {x : Except FormatFault α} {a : α} (hx : x = .ok a) :
    (liftM x : Reader α).Reads [] a := by
  intro rest position
  rw [hx]
  rfl

theorem Reads.known {f : α → Reader β} {x : Except FormatFault α} {bytes : List UInt8} {a : α}
    {b : β} (hx : x = .ok a) (hf : (f a).Reads bytes b) :
    ((liftM x : Reader α) >>= f).Reads bytes b :=
  (reads_known hx).bind hf

theorem Reads.andReturn {r : Reader α} {bytes : List UInt8} {a : α} (h : r.Reads bytes a)
    (f : α → β) : (r >>= fun a => pure (f a)).Reads bytes (f a) := by
  have hbind := h.bind (f := fun a => pure (f a)) (reads_pure (f a))
  rwa [List.append_nil] at hbind

theorem Reads.map {r : Reader α} {bytes : List UInt8} {a : α} (h : r.Reads bytes a) (f : α → β) :
    (f <$> r).Reads bytes (f a) := by
  intro rest position
  simp only [Functor.map, StateT.map, h rest position]
  rfl

theorem reads_take (bytes : List UInt8) : (take bytes.length).Reads bytes bytes := by
  intro rest position
  simp [take]

theorem reads_skip (bytes : List UInt8) : (skip bytes.length).Reads bytes () := by
  have h := (reads_take bytes).bind (f := fun _ => pure ()) (reads_pure ())
  rwa [List.append_nil] at h

theorem reads_u8 (b : UInt8) : u8.Reads [b] b.toNat := by
  have h := (reads_take [b]).bind (f := fun x => pure (Word.ofBytes x)) (reads_pure _)
  have hvalue : Word.ofBytes [b] = b.toNat := by simp [Word.ofBytes]
  rwa [hvalue, List.append_nil] at h

theorem reads_u16 {n : Nat} (h : n < 65536) : u16.Reads (Word.bytes2 n) n := by
  have h' := (reads_take (Word.bytes2 n)).bind (f := fun x => pure (Word.ofBytes x)) (reads_pure _)
  rwa [Word.ofBytes_bytes2, Nat.mod_eq_of_lt h, List.append_nil] at h'

theorem reads_u32 {n : Nat} (h : n < 4294967296) : u32.Reads (Word.bytes4 n) n := by
  have h' := (reads_take (Word.bytes4 n)).bind (f := fun x => pure (Word.ofBytes x)) (reads_pure _)
  rwa [Word.ofBytes_bytes4, Nat.mod_eq_of_lt h, List.append_nil] at h'

theorem reads_times_go {r : Reader α} {parts : List (List UInt8)} {values : List α}
    (h : List.Forall₂ r.Reads parts values) (found : List α) :
    (times.go r found values.length).Reads parts.flatten (found.reverse ++ values) := by
  induction h generalizing found with
  | nil =>
    rw [List.append_nil]
    exact reads_pure _
  | @cons part value parts values hfirst hrest ih =>
    have hgo := hfirst.bind (f := fun a => times.go r (a :: found) values.length)
      (ih (value :: found))
    rw [List.reverse_cons, List.append_assoc] at hgo
    exact hgo

/-- As many items as their count says. -/
theorem reads_counted {r : Reader α} {parts : List (List UInt8)} {values : List α} {n : Nat}
    (h : List.Forall₂ r.Reads parts values) (hn : n = values.length) (hcount : n < 65536) :
    (counted r).Reads (Word.bytes2 n ++ parts.flatten) values := by
  subst hn
  exact (reads_u16 hcount).bind (reads_times_go h [])

theorem reads_block {body : List UInt8} (h : body.length < 4294967296) :
    block.Reads (Word.bytes4 body.length ++ body) body :=
  (reads_u32 h).bind (reads_take body)

/-- A body of its own may be longer than what is read of it. -/
theorem within_of_reads {r : Reader α} {bytes : List UInt8} {a : α} (h : r.Reads bytes a)
    (rest : List UInt8) : within (bytes ++ rest) r = .ok a := by
  rw [within, h rest 0]
  rfl

end Reader

end SmalltalkJvm
