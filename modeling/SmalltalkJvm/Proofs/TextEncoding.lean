import SmalltalkJvm.Proofs.Interning

/-! # Encoded texts

An encoded text can be decoded, so it stands for one text only. Its bytes are neither zero nor above
0xEF. Its length is known without encoding it, and a pool takes a text only if that length can be
written in front of the bytes.
-/

namespace SmalltalkJvm

namespace ModifiedUtf8

theorem unitBytes_range {u : Nat} (h : u < 0x10000) {b : UInt8} (hb : b ∈ unitBytes u) :
    b ≠ 0 ∧ b < 0xF0 := by
  have hrange {n : Nat} (hpos : 0 < n) (hlt : n < 240) : n.toUInt8 ≠ 0 ∧ n.toUInt8 < 0xF0 := by
    have hn : n.toUInt8.toNat = n := UInt8.toNat_ofNat_of_lt' (show _ < 256 by omega)
    constructor
    · intro hzero
      rw [hzero] at hn
      exact hpos.ne hn
    · rw [UInt8.lt_iff_toNat_lt, hn]
      exact hlt
  unfold unitBytes at hb
  split_ifs at hb with hone htwo
  · rw [List.mem_singleton.1 hb]
    apply hrange <;> omega
  · rcases List.mem_pair.1 hb with rfl | rfl
    · apply hrange <;> omega
    · apply hrange <;> omega
  · rcases List.mem_cons.1 hb with rfl | hb
    · apply hrange <;> omega
    · rcases List.mem_pair.1 hb with rfl | rfl
      · apply hrange <;> omega
      · apply hrange <;> omega

theorem encode_range (text : String) : ∀ b ∈ encode text, b ≠ 0 ∧ b < 0xF0 := by
  intro b hb
  obtain ⟨u, hu, hb⟩ := List.mem_flatMap.1 hb
  exact unitBytes_range (lt_of_mem_units hu) hb

end ModifiedUtf8

/-- A pool refuses a text for its length only if the encoded text is longer than a length field can
say. -/
theorem ConstantPool.utf8_textTooLong (text : String) (p : ConstantPool) :
    (∃ p', utf8 text p = .error .textTooLong p') ↔ 65535 < ModifiedUtf8.size text := by
  unfold utf8
  split_ifs with hsize
  · constructor
    · rintro ⟨p', h⟩
      cases (intern_error h).1
    · intro hlong
      omega
  · constructor
    · intro _
      omega
    · intro _
      exact ⟨p, rfl⟩

/-- The two bytes before an encoded text say how long it is. -/
theorem Constant.payload_utf8 {text : String}
    (h : (ModifiedUtf8.encode text).length ≤ 65535) :
    ∃ field, (Constant.utf8 text).payload = field ++ ModifiedUtf8.encode text ∧
      field.length = 2 ∧ Word.ofBytes field = (ModifiedUtf8.encode text).length := by
  refine ⟨Word.bytes2 (ModifiedUtf8.encode text).length, rfl, rfl, ?_⟩
  rw [Word.ofBytes_bytes2]
  omega

/-- Texts survive encoding: they can be decoded, no encoded byte is zero or above 0xEF, and the
length is the one that a pool compares with the limit. So the length written before a text of any
pool is exact. Different texts are encoded differently. -/
theorem ModifiedUtf8.encode_faithful :
    (∀ text, decode (encode text) = text) ∧
    (∀ text, ∀ b ∈ encode text, b ≠ 0 ∧ b < 0xF0) ∧
    (∀ text, (encode text).length = size text) ∧
    (∀ text p, (∃ p', ConstantPool.utf8 text p = .error .textTooLong p') ↔
      65535 < (encode text).length) ∧
    (∀ demands i text, (ConstantPool.empty.run demands).get? i = some (.utf8 text) →
      ∃ field, (Constant.utf8 text).payload = field ++ encode text ∧ field.length = 2 ∧
        Word.ofBytes field = (encode text).length) ∧
    Function.Injective encode := by
  refine ⟨decode_encode, encode_range, length_encode, ?_, ?_, ?_⟩
  · intro text p
    rw [length_encode]
    exact ConstantPool.utf8_textTooLong text p
  · intro demands i text hi
    have hwf := ConstantPool.wellFormed_run ConstantPool.wellFormed_empty demands
    exact Constant.payload_utf8 (hwf.texts i text hi)
  · exact Function.LeftInverse.injective decode_encode

end SmalltalkJvm
