import SmalltalkJvm.Proofs.FrameReading
import SmalltalkJvm.Proofs.LineAttribution

/-! # Line tables

Marks and lines have no size, so several lines can stand at one offset, and some behind the last
instruction. The table that is written has a row for an offset only if code stands there, and the
row has the line opened last. So its offsets rise and lie inside the code, and for each instruction
the last row at or before it tells the line that the body opened last before the instruction.

A line number that does not fit a row is refused, also where no code follows it and there would be
no row.
-/

namespace SmalltalkJvm

theorem lastLine_eq_none_iff (code : List Instruction) :
    lastLine code = none ↔ ∀ number, .line number ∉ code := by
  induction code using List.reverseRecOn with
  | nil => simp [lastLine]
  | append_singleton code i ih =>
    rw [lastLine_concat]
    cases i with
    | line number =>
      have hopened : ¬∀ other, .line other ∉ code ++ [.line number] := fun h =>
        h number List.mem_concat_self
      simp only [Instruction.lineAfter, reduceCtorEq, hopened]
    | _ => simpa [Instruction.lineAfter] using ih

/-- The rows that belong in the line table of a body with the layout and the code given. -/
structure MethodBody.IsLineTable (b : MethodBody) (layout : Layout) (code : List UInt8)
    (rows : List (Nat × Nat)) : Prop where
  rising : rows.Pairwise fun x y => x.1 < y.1
  inside : ∀ row ∈ rows, row.1 < code.length
  /-- The last row at or before an instruction has the line opened last before it. -/
  lines : ∀ before i after, b.instructions = before ++ i :: after → i.isCode = true →
    ∃ pc, layout.offsetOf? before.length = some pc ∧ lineAt rows pc = lastLine before ∧
      (lineAt rows pc = none ↔ ∀ number, .line number ∉ before)

namespace MethodBody.Written

variable {b : MethodBody} {name : String} {l : Linker} {p : CodeParts}

theorem isLineTable (w : b.Written name l p) :
    b.IsLineTable p.layout p.code p.layout.lineTable where
  rising := Layout.pairwise_lineTable p.linked
  inside row hrow := by
    rw [Layout.length_code w.encodes]
    exact (Layout.mem_lineTable hrow).1
  lines before i after hcode hi := by
    obtain ⟨pc, hpc, -, hline⟩ := exists_lineAt w.links hi hcode
    refine ⟨pc, hpc, hline, ?_⟩
    rw [CodeParts.layout, hline]
    exact lastLine_eq_none_iff before

theorem reads_lines (w : b.Written name l p) :
    l.IsAttribute "LineNumberTable" (p.layout.lineTable ≠ [])
      (fun table => (Reader.counted Reader.lineRow).Reads table p.layout.lineTable) p.lines := by
  have hlength := (Layout.length_lineTable_le p.linked).trans w.size_le
  have hrows : ∀ x ∈ p.layout.lineTable, x.1 < 65536 ∧ x.2 < 65536 := by
    intro x hx
    have hstart := (Layout.mem_lineTable hx).1
    have hnumber := Layout.number_le_of_mem_lineTable w.encodes hx
    have hsize := w.size_le
    omega
  refine w.lines.imp_right ?_
  rintro ⟨hsome, n, table, hn, rfl, hone⟩
  exact ⟨hsome, n, _, hn, Reader.reads_lineRows (Nat.lt_succ_of_le hlength) hrows, hone⟩

/-- Every line of a body that is written fits a row, whether it has one or not. -/
theorem number_le (w : b.Written name l p) {number : Nat} (h : .line number ∈ b.instructions) :
    number ≤ 65535 := by
  obtain ⟨k, hk, hlinks⟩ := exists_of_mem_left w.links h
  rw [show k = .line number from hlinks, ← map_snd_withOffsets 0 p.linked] at hk
  obtain ⟨⟨pc, i⟩, hentry, rfl⟩ := List.mem_map.1 hk
  exact Layout.number_le_of_mem_withOffsets w.encodes hentry

end MethodBody.Written

/-- The line table of every method that is written is read as the rows that belong in it, with the
constants of any pool that its own grows into. A method with a line above 65535 is never written. -/
theorem Method.lineTable_reads_lines (m : Method) :
    (∀ l bytes l', m.codeBytes l = .ok bytes l' →
      ∃ p rows, m.codeParts l = .ok p l' ∧ bytes = p.bytes m.body ∧
        m.body.IsLineTable p.layout p.code rows ∧
        ∀ later : Linker, l'.pool.Grows later.pool →
          later.IsAttribute "LineNumberTable" (rows ≠ [])
            (fun table => (Reader.counted Reader.lineRow).Reads table rows) p.lines) ∧
      ∀ number, .line number ∈ m.body.instructions → 65535 < number →
        ∀ l, ∃ fault l', m.codeBytes l = .error fault l' := by
  constructor
  · intro l bytes l' h
    obtain ⟨p, hp, hbytes⟩ := exists_codeParts h
    obtain ⟨-, hwritten⟩ := leaves_codeParts m l p l' hp
    refine ⟨p, p.layout.lineTable, hp, hbytes, (hwritten l' (.refl _)).isLineTable, ?_⟩
    exact fun later hlater => (hwritten later hlater).reads_lines
  · intro number hmem hlarge l
    cases h : m.codeBytes l with
    | error fault l' => exact ⟨fault, l', rfl⟩
    | ok bytes l' =>
      obtain ⟨p, hp, -⟩ := exists_codeParts h
      obtain ⟨-, hwritten⟩ := leaves_codeParts m l p l' hp
      have hle := (hwritten l' (.refl _)).number_le hmem
      omega

/-- Two lines stand at the first offset, with a mark between them, and one behind all code. -/
def Greeter.trace (last : Nat) : Method where
  access := Access.isPublic
  name := "trace"
  descriptor := "()Ljava/lang/Object;"
  body := {
    instructions := [.line 1, .mark ⟨0⟩, .line 2, .plain .aconstNull, .line 3, .plain .areturn,
      .line last]
    handlers := []
    frames := []
    locals := [.object "st/Greeter"]
    maxStack := 1
    maxLocals := 1 }

theorem lineTable_reads_lines_trace :
    (∃ bytes l' p rows, (Greeter.trace 4).codeBytes {} = .ok bytes l' ∧
      (Greeter.trace 4).codeParts {} = .ok p l' ∧
      (Greeter.trace 4).body.IsLineTable p.layout p.code rows ∧
      l'.IsAttribute "LineNumberTable" (rows ≠ [])
        (fun table => (Reader.counted Reader.lineRow).Reads table rows) p.lines) ∧
      ∀ l, ∃ fault l', (Greeter.trace 65536).codeBytes l = .error fault l' := by
  have hspends := Method.spends_codeBytes (m := Greeter.trace 4) (by decide)
    (short_of_bytes (by decide))
  obtain ⟨bytes, l', h, -⟩ := hspends {} (by decide)
  obtain ⟨p, rows, hp, -, htable, hreads⟩ :=
    (Method.lineTable_reads_lines (Greeter.trace 4)).1 {} bytes l' h
  refine ⟨⟨bytes, l', p, rows, h, hp, htable, hreads l' (.refl _)⟩, ?_⟩
  exact (Method.lineTable_reads_lines (Greeter.trace 65536)).2 65536 (by decide) (by decide)

end SmalltalkJvm
