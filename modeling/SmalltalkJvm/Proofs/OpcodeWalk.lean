import SmalltalkJvm.Proofs.Disassembly
import SmalltalkJvm.Proofs.FrameReading
import SmalltalkJvm.Proofs.StepSequences

/-! # Walks over written code

A walk over a code array knows only how many bytes follow each opcode. Over the code of a method
that is written from the forms of instructions that drafts emit, it finds the opcode of each
instruction in turn: every operand is as long as the walk takes it to be.
-/

namespace SmalltalkJvm

def Opcode.isCall : Opcode → Bool
  | invokevirtual | invokespecial | invokestatic | invokeinterface => true
  | _ => false

namespace Instruction

/-- The forms of instructions that drafts emit, whatever their operands. -/
def HasForm : Instruction → Prop
  | plain op => Draft.standsAlone op = true
  | push op _ => op = .bipush ∨ op = .sipush
  | slot op _ => op = .aload ∨ op = .astore
  | classRef op _ => op = .new ∨ op = .checkcast
  | field op _ => op = .getstatic
  | invoke op _ => op.isCall = true
  | jump op _ => op = .goto
  | constant _ | dynamic _ | mark _ | line _ => True

theorem IsEmitted.hasForm {i : Instruction} (h : i.IsEmitted) : i.HasForm := by
  cases i with
  | push op value => exact h.imp_left And.left
  | invoke op member => rcases h with rfl | rfl | rfl | ⟨rfl, -⟩ <;> rfl
  | _ => exact h

/-- The opcode that a walk finds for an instruction. The number of a constant decides how it is
loaded, and the first four variables have accesses of their own. -/
def IsWalkedAs (p : ConstantPool) : Instruction → Opcode → Prop
  | plain op, found | push op _, found | classRef op _, found | field op _, found
  | invoke op _, found | jump op _, found => found = op
  | constant value, found => ∃ n, p.IsLoadable n value ∧ found = if n < 256 then .ldc else .ldcW
  | slot op index, found => if index.toNat < 4 then found.slot? = some (op, index) else found = op
  | dynamic _, found => found = .invokedynamic
  | mark _, _ | line _, _ => False

end Instruction

namespace Draft

variable {d : Draft}

def Step.isRegular : Step → Bool
  | invoke op _ => op.isCall
  | _ => true

theorem standsAlone_of_plain {op : Opcode} (hr : d.reachable = true)
    (hf : (d.plain op).fault = none) : standsAlone op = true := by
  by_contra hs
  rw [plain, if_pos hr, if_neg hs] at hf
  exact fault_fail d _ hf

theorem Step.hasForm_of_instruction? {s : Step} {i : Instruction} (hs : s.isRegular = true)
    (hr : d.reachable = true) (hf : (d.step s).fault = none) (hi : s.instruction? = some i) :
    i.HasForm := by
  cases s <;> cases hi
  case plain op => exact standsAlone_of_plain hr hf
  case int value => exact (isEmitted_intInstruction value).hasForm
  case string | invokeDynamic => trivial
  case load | create => exact .inl rfl
  case store => exact .inr rfl
  case getStatic => rfl
  case invoke => exact hs

theorem code_plain {op : Opcode} (hf : (d.plain op).fault = none) :
    (d.plain op).code = d.code ∨ ∃ i, (d.plain op).code = d.code.push i ∧ i.HasForm := by
  by_cases hr : d.reachable = true
  · exact .inr ⟨_, (plain_performs hr hf).code, standsAlone_of_plain hr hf⟩
  · rw [plain, if_neg hr]
    exact .inl rfl

/-- A step emits at most one instruction, of one of the forms. -/
theorem code_step {s : Step} (hs : s.isRegular = true) (hf : (d.step s).fault = none) :
    (d.step s).code = d.code ∨ ∃ i, (d.step s).code = d.code.push i ∧ i.HasForm := by
  cases hi : s.instruction? with
  | some i =>
    by_cases hr : d.reachable = true
    · exact .inr ⟨i, (step_performs hr hi hf).code, s.hasForm_of_instruction? hs hr hf hi⟩
    · have hsame := step_of_not_reachable (concernsLabels_of_instruction? hi) (by simpa using hr)
      exact .inl (by rw [hsame])
  | none =>
    cases s with
    | line number =>
      rw [step, openLine]
      split_ifs
      · exact .inr ⟨.line number, rfl, trivial⟩
      · exact .inl rfl
    | discard =>
      rw [step, discard] at hf ⊢
      split at hf <;> exact code_plain hf
    | mark label => exact .inr ⟨.mark label, code_mark d label, trivial⟩
    | markHandler label exception =>
      exact .inr ⟨.mark label, code_mark _ label, trivial⟩
    | goto target =>
      rw [step, goto]
      split_ifs
      · exact .inr ⟨.jump .goto target, rfl, rfl⟩
      · exact .inl rfl
    | label | protect => exact .inl rfl
    | _ => cases hi

/-- Steps emit only instructions of these forms. -/
theorem hasForm_of_run {steps : List Step} (hsteps : ∀ s ∈ steps, s.isRegular = true)
    (hd : ∀ i ∈ d.code, i.HasForm) (hf : (d.run steps).fault = none) :
    ∀ i ∈ (d.run steps).code, i.HasForm := by
  induction steps generalizing d with
  | nil => exact hd
  | cons s steps ih =>
    obtain ⟨hs, hsteps⟩ := List.forall_mem_cons.1 hsteps
    refine ih hsteps ?_ hf
    rcases code_step hs (fault_run hf) with hcode | ⟨i, hcode, hi⟩
    · rwa [hcode]
    · rw [hcode]
      intro j hj
      rcases Array.mem_push.1 hj with hj | rfl
      · exact hd j hj
      · exact hi

theorem hasForm_of_finish {steps : List Step} {b : MethodBody}
    (hsteps : ∀ s ∈ steps, s.isRegular = true) (hd : d.code = #[])
    (h : (d.run steps).finish = .ok b) : ∀ i ∈ b.instructions, i.HasForm := by
  have hfinishes := finishes_of_finish h
  have hforms := hasForm_of_run hsteps (by simp [hd]) hfinishes.fault
  rw [hfinishes.instructions]
  simpa using hforms

end Draft

/-- A walk finds one opcode in some bytes, whatever comes before and after them. -/
def Walks (bytes : List UInt8) (op : Opcode) : Prop :=
  ∀ offset found rest, walkOpcodes offset found (bytes ++ rest) =
    walkOpcodes (offset + bytes.length) (found.push op) rest

theorem walks_opcode {op : Opcode} (hop : op ≠ .wide) {operands : List UInt8}
    (h : operands.length = op.operandBytes) : Walks (op.byte :: operands) op := by
  intro offset found rest
  rw [List.cons_append, walkOpcodes.eq_def]
  simp only [Opcode.ofByte?_byte]
  rw [List.drop_left' h, List.length_cons, h, Nat.add_assoc, Nat.add_comm 1]

theorem walks_wide (op : Opcode) {operands : List UInt8} (h : operands.length = 2) :
    Walks (Opcode.wide.byte :: op.byte :: operands) op := by
  intro offset found rest
  rw [List.cons_append, List.cons_append, walkOpcodes.eq_def]
  simp only [Opcode.ofByte?_byte]
  rw [List.drop_left' h, List.length_cons, List.length_cons, h]

/-- The one byte of an access to one of the first four variables. -/
theorem exists_short {op : Opcode} (h : op = .aload ∨ op = .astore) {index : UInt16}
    (hindex : index.toNat < 4) :
    ∃ short : Opcode, slotBytes op index = [short.byte] ∧ short.slot? = some (op, index) := by
  rcases h with rfl | rfl
  · obtain rfl | rfl | rfl | rfl := Reader.eq_of_toNat_lt_four hindex
    · exact ⟨.aload0, rfl, rfl⟩
    · exact ⟨.aload1, rfl, rfl⟩
    · exact ⟨.aload2, rfl, rfl⟩
    · exact ⟨.aload3, rfl, rfl⟩
  · obtain rfl | rfl | rfl | rfl := Reader.eq_of_toNat_lt_four hindex
    · exact ⟨.astore0, rfl, rfl⟩
    · exact ⟨.astore1, rfl, rfl⟩
    · exact ⟨.astore2, rfl, rfl⟩
    · exact ⟨.astore3, rfl, rfl⟩

theorem walks_short {short op : Opcode} {index : UInt16} (h : short.slot? = some (op, index)) :
    Walks [short.byte] short := by
  have hform : short ≠ .wide ∧ short.operandBytes = 0 := by
    cases short <;> simp_all [Opcode.slot?, Opcode.operandBytes]
  exact walks_opcode hform.1 hform.2.symm

theorem walks_slot {op : Opcode} (h : op = .aload ∨ op = .astore) (index : UInt16) :
    ∃ found, Walks (slotBytes op index) found ∧
      if index.toNat < 4 then found.slot? = some (op, index) else found = op := by
  by_cases hshort : index.toNat < 4
  · obtain ⟨short, hbytes, hslot⟩ := exists_short h hshort
    rw [hbytes]
    simp only [if_pos hshort]
    exact ⟨short, walks_short hslot, hslot⟩
  · simp only [slotBytes, if_neg hshort]
    refine ⟨op, ?_, rfl⟩
    by_cases hbyte : index.toNat < 256
    · rw [if_pos hbyte]
      rcases h with rfl | rfl <;> exact walks_opcode (by decide) rfl
    · rw [if_neg hbyte]
      exact walks_wide op rfl

theorem walks_push {op : Opcode} (h : op = .bipush ∨ op = .sipush) {value : Int16} {layout : Layout}
    {method : String} {pc : Nat} {bytes : List UInt8}
    (hbytes : (Linked.push op value).bytes layout method pc = .ok bytes) : Walks bytes op := by
  rcases h with rfl | rfl
  · cases hbytes
    exact walks_opcode (by decide) rfl
  · cases hbytes
    exact walks_opcode (by decide) rfl

theorem walks_constant {n : Nat} {layout : Layout} {method : String} {pc : Nat}
    {bytes : List UInt8} (hbytes : (Linked.constant n).bytes layout method pc = .ok bytes) :
    Walks bytes (if n < 256 then .ldc else .ldcW) := by
  rw [Linked.bytes] at hbytes
  by_cases hn : n < 256
  · rw [if_pos hn] at hbytes ⊢
    cases hbytes
    exact walks_opcode (by decide) rfl
  · rw [if_neg hn] at hbytes ⊢
    cases hbytes
    exact walks_opcode (by decide) rfl

/-- An instruction with a pooled operand. -/
theorem walks_pooled {op : Opcode} (hop : op ≠ .wide) (h : op.operandBytes = 2) {n : Nat}
    {layout : Layout} {method : String} {pc : Nat} {bytes : List UInt8}
    (hbytes : (Linked.pooled op n).bytes layout method pc = .ok bytes) : Walks bytes op := by
  cases hbytes
  exact walks_opcode hop (by rw [Word.length_bytes2, h])

theorem walks_interfaceCall {n : Nat} {descriptor : String} {layout : Layout} {method : String}
    {pc : Nat} {bytes : List UInt8}
    (hbytes : (Linked.interfaceCall n descriptor).bytes layout method pc = .ok bytes) :
    Walks bytes .invokeinterface := by
  rw [Linked.bytes] at hbytes
  split at hbytes
  · cases hbytes
    exact walks_opcode (by decide) rfl
  · cases hbytes

theorem walks_goto {target : Label} {layout : Layout} {method : String} {pc : Nat}
    {bytes : List UInt8} (hbytes : (Linked.jump .goto target).bytes layout method pc = .ok bytes) :
    Walks bytes .goto := by
  simp only [Linked.bytes] at hbytes
  split at hbytes
  · split_ifs at hbytes
    cases hbytes
    exact walks_opcode (by decide) rfl
  · cases hbytes

/-- In what is written for an instruction, a walk finds its opcode. -/
theorem Instruction.HasForm.walks {i : Instruction} (hi : i.HasForm) (hcode : i.isCode = true)
    {p : ConstantPool} {k : Linked} (hlinks : i.LinksTo p.Numbers k) {layout : Layout}
    {method : String} {pc : Nat} {bytes : List UInt8}
    (hbytes : k.bytes layout method pc = .ok bytes) :
    ∃ found, Walks bytes found ∧ i.IsWalkedAs p found := by
  cases i with
  | plain op =>
    cases hlinks
    cases hbytes
    have hform : op ≠ .wide ∧ op.operandBytes = 0 := by
      cases op <;> simp_all [HasForm, Draft.standsAlone, Opcode.operandBytes]
    exact ⟨op, walks_opcode hform.1 hform.2.symm, rfl⟩
  | push op value =>
    cases hlinks
    exact ⟨op, walks_push hi hbytes, rfl⟩
  | constant value =>
    obtain ⟨n, hn, rfl⟩ := hlinks
    exact ⟨_, walks_constant hbytes, n, hn value rfl, rfl⟩
  | slot op index =>
    cases hlinks
    cases hbytes
    exact walks_slot hi index
  | classRef op name =>
    obtain ⟨n, -, rfl⟩ := hlinks
    refine ⟨op, ?_, rfl⟩
    rcases hi with rfl | rfl <;> exact walks_pooled (by decide) rfl hbytes
  | field op member =>
    obtain ⟨n, -, rfl⟩ := hlinks
    cases hi
    exact ⟨_, walks_pooled (by decide) rfl hbytes, rfl⟩
  | invoke op member =>
    rcases hlinks with ⟨rfl, n, -, rfl⟩ | ⟨hop, n, -, rfl⟩
    · exact ⟨_, walks_interfaceCall hbytes, rfl⟩
    · refine ⟨op, ?_, rfl⟩
      have hform : op ≠ .wide ∧ op.operandBytes = 2 := by
        cases op <;> simp_all [HasForm, Opcode.isCall, Opcode.operandBytes]
      exact walks_pooled hform.1 hform.2 hbytes
  | dynamic site =>
    obtain ⟨n, -, rfl⟩ := hlinks
    cases hbytes
    exact ⟨_, walks_opcode (by decide) rfl, rfl⟩
  | jump op target =>
    cases hlinks
    cases hi
    exact ⟨_, walks_goto hbytes, rfl⟩
  | mark label | line number => cases hcode

/-- A walk over linked code from any place on finds the opcodes of the instructions that produce
code. -/
theorem walkOpcodes_linked {p : ConstantPool} {layout : Layout} {method : String}
    {code : List Instruction} {linked : List Linked}
    (hlinks : List.Forall₂ (Instruction.LinksTo p.Numbers) code linked)
    (hforms : ∀ i ∈ code, i.HasForm) {pc : Nat} {parts : List (List UInt8)}
    (hparts : List.Forall₂ (fun x part => x.2.bytes layout method x.1 = .ok part)
      (withOffsets pc linked) parts) (offset : Nat) (found : Array Opcode) :
    ∃ ops : List Opcode, walkOpcodes offset found parts.flatten = .ok (found ++ ops) ∧
      List.Forall₂ (Instruction.IsWalkedAs p) (code.filter Instruction.isCode) ops := by
  induction hlinks generalizing pc parts offset found with
  | nil =>
    cases hparts
    exact ⟨[], by simp [walkOpcodes], .nil⟩
  | @cons i k code linked hik _ ih =>
    obtain ⟨hi, hforms⟩ := List.forall_mem_cons.1 hforms
    rw [withOffsets] at hparts
    obtain ⟨part, rest, hpart, hrest, rfl⟩ := List.forall₂_cons_left_iff.1 hparts
    rw [List.flatten_cons, List.filter_cons]
    cases hcode : i.isCode with
    | false =>
      -- Marks and lines have no bytes, so the walk does not see them.
      have hlength := Linked.length_bytes hpart
      rw [hik.size_eq_zero hcode] at hlength
      rw [List.eq_nil_of_length_eq_zero hlength]
      exact ih hforms hrest offset found
    | true =>
      obtain ⟨op, hwalks, hop⟩ := hi.walks hcode hik hpart
      obtain ⟨ops, hops, hall⟩ := ih hforms hrest (offset + part.length) (found.push op)
      refine ⟨op :: ops, ?_, .cons hop hall⟩
      rw [hwalks, hops]
      simp

/-- A walk over the code of every method that is written from such forms finds one opcode for each
instruction, in order. -/
theorem Method.opcodes_codeBytes {m : Method} {l l' : Linker} {bytes : List UInt8}
    (hforms : ∀ i ∈ m.body.instructions, i.HasForm) (h : m.codeBytes l = .ok bytes l') :
    ∃ p ops, m.codeParts l = .ok p l' ∧ bytes = p.bytes m.body ∧ opcodes p.code = .ok ops ∧
      List.Forall₂ (Instruction.IsWalkedAs l'.pool) m.body.code ops := by
  obtain ⟨p, hp, hbytes⟩ := exists_codeParts h
  obtain ⟨-, hwritten⟩ := leaves_codeParts m l p l' hp
  have hnow := hwritten l' (.refl _)
  obtain ⟨parts, hparts, hcode⟩ := Layout.code_ok hnow.encodes
  obtain ⟨ops, hops, hall⟩ := walkOpcodes_linked hnow.links hforms hparts 0 #[]
  refine ⟨p, ops, hp, hbytes, ?_, hall⟩
  rw [opcodes, hcode, hops]
  simp [Except.map]

namespace Greeter

def relaySteps : List Draft.Step :=
  [.line 1, .int 7, .discard, .string "hello", .store 300, .load 0, .load 300,
    .invoke .invokeinterface ⟨"st/Named", "call", "(Ljava/lang/Object;)Ljava/lang/Object;"⟩,
    .plain .areturn]

/-- Passes a greeting on through a variable that only the wide form reaches. -/
def relay : Method where
  access := Access.isPublic
  name := "relay"
  descriptor := "()Ljava/lang/Object;"
  body := {
    instructions := [.line 1, .push .bipush 7, .plain .pop, .constant (.string "hello"),
      .slot .astore 300, .slot .aload 0, .slot .aload 300,
      .invoke .invokeinterface ⟨"st/Named", "call", "(Ljava/lang/Object;)Ljava/lang/Object;"⟩,
      .plain .areturn]
    handlers := []
    frames := []
    locals := [.object "st/Greeter"]
    maxStack := 2
    maxLocals := 301 }

theorem relay_finishes :
    ((Draft.method [.object "st/Greeter"]).run relaySteps).finish = .ok relay.body := by
  decide +kernel

end Greeter

theorem opcodes_codeBytes_relay : ∃ bytes l' p ops, Greeter.relay.codeBytes {} = .ok bytes l' ∧
    Greeter.relay.codeParts {} = .ok p l' ∧ opcodes p.code = .ok ops ∧
      List.Forall₂ (Instruction.IsWalkedAs l'.pool) Greeter.relay.body.code ops := by
  have hforms := Draft.hasForm_of_finish (by decide) rfl Greeter.relay_finishes
  have hspends := Method.spends_codeBytes (m := Greeter.relay) (by decide +kernel)
    (short_of_bytes (by decide))
  obtain ⟨bytes, l', h, -⟩ := hspends {} (by decide)
  obtain ⟨p, ops, hp, -, hops, hall⟩ := Method.opcodes_codeBytes hforms h
  exact ⟨bytes, l', p, ops, h, hp, hops, hall⟩

end SmalltalkJvm
