import SmalltalkJvm.Proofs.Catching
import SmalltalkJvm.Proofs.RoundTrip

/-! # Lines of instructions

The line of an instruction is the one opened last before it. That is also what a line table says of
the instruction's offset, although lines that no code follows are left out and of several lines at
one offset only the last stays.

A draft opens a line only if it takes another one for open. It forgets what is open where control
comes from elsewhere, so wherever control comes to, the line that it takes for open is the one
opened last.
-/

namespace SmalltalkJvm

/-- The line that is open behind an instruction, given the one that is open before it. -/
def Instruction.lineAfter (before : Option Nat) : Instruction → Option Nat
  | line number => some number
  | _ => before

def lastLine (code : List Instruction) : Option Nat := code.foldl Instruction.lineAfter none

theorem lastLine_concat (code : List Instruction) (i : Instruction) :
    lastLine (code ++ [i]) = i.lineAfter (lastLine code) := by
  simp [lastLine]

theorem Instruction.lineAfter_of_isCode {i : Instruction} (h : i.isCode = true)
    (before : Option Nat) : i.lineAfter before = before := by
  cases i with
  | line number => cases h
  | _ => rfl

def Linked.lineAfter (before : Option Nat) : Linked → Option Nat
  | line number => some number
  | _ => before

section

variable {R : Operand → Nat → Prop}

theorem Instruction.LinksTo.lineAfter_eq {i : Instruction} {k : Linked} (h : i.LinksTo R k)
    (before : Option Nat) : k.lineAfter before = i.lineAfter before := by
  cases i with
  | plain | push | slot | jump | mark | line =>
    cases h
    rfl
  | constant | classRef | field | dynamic =>
    obtain ⟨n, -, rfl⟩ := h
    rfl
  | invoke => obtain ⟨-, n, -, rfl⟩ | ⟨-, n, -, rfl⟩ := h <;> rfl

/-- Linking leaves lines as they are. -/
theorem foldl_lineAfter_linked {code : List Instruction} {linked : List Linked}
    (h : List.Forall₂ (Instruction.LinksTo R) code linked) :
    linked.foldl Linked.lineAfter none = lastLine code := by
  have hall (before : Option Nat) :
      linked.foldl Linked.lineAfter before = code.foldl Instruction.lineAfter before := by
    induction h generalizing before with
    | nil => rfl
    | cons hfirst _ ih => rw [List.foldl_cons, List.foldl_cons, hfirst.lineAfter_eq, ih]
  exact hall none

end

/-- The line that a table gives an offset: that of the last row which starts there or before. -/
def lineAt (rows : List (Nat × Nat)) (pc : Nat) : Option Nat :=
  (rows.filter fun row => row.1 ≤ pc).getLast?.map Prod.snd

theorem le_of_mem_withOffsets {pc : Nat} {code : List Linked} {entry : Nat × Linked}
    (h : entry ∈ withOffsets pc code) : pc ≤ entry.1 := by
  obtain ⟨i, hi⟩ := List.mem_iff_getElem?.1 h
  rw [getElem?_withOffsets] at hi
  obtain ⟨k, -, rfl⟩ := Option.map_eq_some_iff.1 hi
  exact Nat.le_add_right _ _

theorem map_snd_withOffsets (pc : Nat) (code : List Linked) :
    (withOffsets pc code).map Prod.snd = code := by
  induction code generalizing pc with
  | nil => rfl
  | cons i code ih => rw [withOffsets, List.map_cons, ih]

namespace Layout

/-- The newest line that is noted is the one opened last. -/
theorem head_foldl_noteLine (lines : List (Nat × Nat)) (entries : List (Nat × Linked)) :
    (entries.foldl noteLine lines).head?.map Prod.snd =
      (entries.map Prod.snd).foldl Linked.lineAfter (lines.head?.map Prod.snd) := by
  induction entries generalizing lines with
  | nil => rfl
  | cons entry entries ih =>
    obtain ⟨pc, i⟩ := entry
    rw [List.foldl_cons, List.map_cons, List.foldl_cons, ih]
    congr 1
    cases i with
    | line number =>
      cases lines with
      | nil => rfl
      | cons opened rest =>
        simp only [noteLine]
        split_ifs <;> rfl
    | _ => rfl

/-- Lines at other offsets stay as they are. -/
theorem foldl_noteLine_append {lines : List (Nat × Nat)} {entries : List (Nat × Linked)}
    (h : ∀ entry ∈ entries, ∀ x ∈ lines, x.1 ≠ entry.1) (newer : List (Nat × Nat)) :
    entries.foldl noteLine (newer ++ lines) = entries.foldl noteLine newer ++ lines := by
  induction entries generalizing newer with
  | nil => rfl
  | cons entry entries ih =>
    obtain ⟨hentry, hrest⟩ := List.forall_mem_cons.1 h
    have hnote : noteLine (newer ++ lines) entry = noteLine newer entry ++ lines := by
      obtain ⟨pc, i⟩ := entry
      cases i with
      | line number =>
        cases newer with
        | nil =>
          cases lines with
          | nil => rfl
          | cons opened rest => exact if_neg (hentry opened List.mem_cons_self)
        | cons opened rest =>
          simp only [List.cons_append, noteLine]
          split_ifs <;> rfl
      | _ => rfl
    rw [List.foldl_cons, List.foldl_cons, hnote, ih hrest]

/-- The table gives the offset of an instruction that produces code the line opened last before
it. -/
theorem lineAt_lineTable {before after : List Linked} {i : Linked} (hi : 0 < i.size) :
    lineAt (ofList (before ++ i :: after)).lineTable (codeSize before) =
      before.foldl Linked.lineAfter none := by
  obtain ⟨older, holder⟩ : ∃ x, x = (withOffsets 0 before).foldl noteLine [] := ⟨_, rfl⟩
  obtain ⟨newer, hnewer⟩ : ∃ x, x = (withOffsets (codeSize before + i.size) after).foldl noteLine
      [] := ⟨_, rfl⟩
  have holderLe : ∀ x ∈ older, x.1 ≤ codeSize before := by
    intro x hx
    rw [holder] at hx
    have hmem := (mem_foldl_noteLine hx).resolve_left (by simp)
    simpa using (mem_withOffsets hmem).2
  have hnewerLt : ∀ x ∈ newer, codeSize before < x.1 := by
    intro x hx
    rw [hnewer] at hx
    have hmem := (mem_foldl_noteLine hx).resolve_left (by simp)
    exact (Nat.lt_add_of_pos_right hi).trans_le (le_of_mem_withOffsets hmem)
  have hnoted : (withOffsets 0 (before ++ i :: after)).foldl noteLine [] = newer ++ older := by
    have hskip : noteLine older (codeSize before, i) = older := by
      cases i with
      | line number => cases hi
      | _ => rfl
    have hapart : ∀ entry ∈ withOffsets (codeSize before + i.size) after, ∀ x ∈ older,
        x.1 ≠ entry.1 := by
      intro entry hentry x hx
      have := holderLe x hx
      have := le_of_mem_withOffsets hentry
      omega
    rw [withOffsets_append, List.foldl_append, ← holder, Nat.zero_add, withOffsets,
      List.foldl_cons, hskip, hnewer]
    exact foldl_noteLine_append hapart []
  have hsize : codeSize before < codeSize (before ++ i :: after) := by
    rw [codeSize_append, codeSize_cons]
    omega
  have hrows : ((ofList (before ++ i :: after)).lineTable.filter fun row =>
      row.1 ≤ codeSize before) = older.reverse := by
    rw [lineTable, placed_ofList, size_ofList, hnoted, List.reverse_append, List.filter_append,
      List.filter_append, List.filter_filter, List.filter_filter,
      List.filter_eq_self.2 fun x hx => ?_, List.filter_eq_nil_iff.2 fun x hx => ?_,
      List.append_nil]
    · have := hnewerLt x (List.mem_reverse.1 hx)
      simp only [Bool.and_eq_true, decide_eq_true_eq]
      omega
    · have := holderLe x (List.mem_reverse.1 hx)
      simp only [Bool.and_eq_true, decide_eq_true_eq]
      omega
  rw [lineAt, hrows, List.getLast?_reverse, holder, head_foldl_noteLine, map_snd_withOffsets]
  rfl

end Layout

/-- The table of linked code attributes an instruction that produces code to the line opened last
before it. -/
theorem exists_lineAt {R : Operand → Nat → Prop} {code before after : List Instruction}
    {i : Instruction} {linked : List Linked} (h : List.Forall₂ (Instruction.LinksTo R) code linked)
    (hi : i.isCode = true) (hcode : code = before ++ i :: after) :
    ∃ pc, (Layout.ofList linked).offsetOf? before.length = some pc ∧
      pc = codeSize (linked.take before.length) ∧
      lineAt (Layout.ofList linked).lineTable pc = lastLine before := by
  rw [hcode] at h
  obtain ⟨linked₁, rest, hbefore, hrest, rfl⟩ : ∃ linked₁ rest,
      List.Forall₂ (Instruction.LinksTo R) before linked₁ ∧
        List.Forall₂ (Instruction.LinksTo R) (i :: after) rest ∧ linked = linked₁ ++ rest :=
    ⟨_, _, (List.forall₂_take_append _ _ _ h.flip).flip,
      (List.forall₂_drop_append _ _ _ h.flip).flip, (List.take_append_drop _ _).symm⟩
  obtain ⟨k, linked₂, hik, -, rfl⟩ := List.forall₂_cons_left_iff.1 hrest
  refine ⟨codeSize linked₁, ?_, ?_, ?_⟩
  · rw [hbefore.length_eq, Layout.offsetOf?_ofList, List.getElem?_append_right (Nat.le_refl _),
      Nat.sub_self, List.take_left]
    rfl
  · rw [hbefore.length_eq, List.take_left]
  · rw [Layout.lineAt_lineTable (hik.size_pos hi), foldl_lineAfter_linked hbefore]

namespace Draft

theorem line_pop (d : Draft) (op : Opcode) : (d.pop op).2.line = d.line := by
  unfold pop
  split <;> rfl

theorem line_popMany (d : Draft) (op : Opcode) (n : Nat) : (d.popMany op n).line = d.line := by
  induction n generalizing d with
  | zero => rfl
  | succ n ih => exact (ih _).trans (d.line_pop op)

theorem line_construct (d : Draft) (receiver : Option VerificationType) (owner : String) :
    (d.construct receiver owner).line = d.line := by
  unfold construct
  split <;> rfl

theorem line_popReceiver (d : Draft) (op : Opcode) (method : MemberRef) :
    (d.popReceiver op method).line = d.line := by
  unfold popReceiver
  split_ifs
  · rfl
  · exact (line_construct _ _ _).trans (d.line_pop op)
  · exact d.line_pop op

theorem line_pushResult (d : Draft) (result : Option FieldType) :
    (d.pushResult result).line = d.line := by
  cases result <;> rfl

theorem line_operate (d : Draft) (op : Opcode) : (d.operate op).line = d.line := by
  have hpop := d.line_pop op
  have htwice := ((d.pop op).2.line_pop op).trans hpop
  cases op
  case pop | areturn | athrow => exact hpop
  case pop2 =>
    simp only [operate]
    split <;> rename_i heq
    · rw [heq] at hpop htwice
      split_ifs
      · exact hpop
      · exact htwice
    · rw [heq] at hpop
      exact hpop
  case dup =>
    simp only [operate]
    split <;> rename_i heq <;> rw [heq] at hpop <;> exact hpop
  case dupX1 | swap =>
    simp only [operate]
    split
    · rename_i heq
      rw [heq] at htwice
      exact htwice
    · rename_i heq _
      rw [heq] at htwice
      exact htwice
  all_goals rfl

theorem line_plain (d : Draft) (op : Opcode) : (d.plain op).line = d.line := by
  unfold plain
  split_ifs
  · exact d.line_operate op
  · rfl
  · rfl

theorem isCode_intInstruction (value : Int32) : (intInstruction value).isCode = true := by
  unfold intInstruction
  split
  · rfl
  · split_ifs <;> rfl

/-- Only opening a line and placing a label change which line is open. -/
theorem line_step {d : Draft} {op : Operation} (h : ∀ number, op ≠ .line number) :
    (d.step op.step).line = d.line := by
  cases op with
  | line number => exact absurd rfl (h number)
  | dup | areturn => exact d.line_plain _
  | discard =>
    change d.discard.line = d.line
    unfold discard
    split <;> exact d.line_plain _
  | int value =>
    change (d.pushInt value).line = d.line
    unfold pushInt
    split_ifs <;> rfl
  | string text =>
    change (d.pushString text).line = d.line
    unfold pushString
    split_ifs <;> rfl
  | load slot =>
    change (d.load slot).line = d.line
    unfold load
    split_ifs
    · split <;> rfl
    · rfl
  | getStatic field =>
    change (d.getStatic field).line = d.line
    unfold getStatic
    split_ifs
    · split <;> rfl
    · rfl
  | invokeVirtual method | invokeStatic method =>
    change (d.invoke _ method).line = d.line
    unfold invoke
    split_ifs
    · split
      · exact (line_pushResult _ _).trans ((line_popReceiver _ _ _).trans (d.line_popMany _ _))
      · rfl
    · rfl
  | invokeDynamic site =>
    change (d.invokeDynamic site).line = d.line
    unfold invokeDynamic
    split_ifs
    · split
      · exact (line_pushResult _ _).trans (d.line_popMany _ _)
      · rfl
    · rfl

/-- Where control comes to a method that records lines: the line which is taken for open is the one
opened last. -/
structure Lined (d : Draft) : Prop where
  reachable : d.reachable = true
  records : d.recordsLines = true
  line : ∀ number, d.line = some number → lastLine d.code.toList = some number

variable {d : Draft}

theorem Lined.of_none (hr : d.reachable = true) (hrecords : d.recordsLines = true)
    (hline : d.line = none) : d.Lined :=
  ⟨hr, hrecords, fun number h => by
    rw [hline] at h
    cases h⟩

theorem Lined.openLine (h : d.Lined) (number : Nat) :
    (d.openLine number).Lined ∧ lastLine (d.openLine number).code.toList = some number := by
  unfold Draft.openLine
  split_ifs with hopen
  · have hlast : lastLine (d.append (.line number)).code.toList = some number := by
      rw [append, Array.toList_push, lastLine_concat]
      rfl
    refine ⟨⟨h.reachable, h.records, fun n hn => ?_⟩, hlast⟩
    cases hn
    exact hlast
  · have hline : d.line = some number := by simpa [h.records, h.reachable] using hopen
    exact ⟨h, h.line number hline⟩

theorem Lined.step (h : d.Lined) {op : Operation} (hop : op ≠ .areturn)
    (hf : (d.step op.step).fault = none) : (d.step op.step).Lined := by
  by_cases hline : ∃ number, op = .line number
  · obtain ⟨number, rfl⟩ := hline
    exact (h.openLine number).1
  · have hne : ∀ number, op ≠ .line number := fun number heq => hline ⟨number, heq⟩
    have hkept (i : Instruction) (hi : i.isCode = true)
        (hperforms : d.Performs i (d.step op.step)) : (d.step op.step).Lined := by
      refine ⟨(Operation.readable_of_step h.reachable hf).2 hop,
        hperforms.recordsLines.trans h.records, fun number hn => ?_⟩
      rw [line_step hne] at hn
      rw [hperforms.code, Array.toList_push, lastLine_concat, i.lineAfter_of_isCode hi]
      exact h.line number hn
    rcases step_operation h.reachable op hf with ⟨-, hopened⟩ | hperforms | ⟨-, hperforms, -⟩
    · exact absurd hopened hline
    · refine hkept _ ?_ hperforms
      cases op with
      | line number => exact absurd rfl (hne number)
      | int value => exact isCode_intInstruction value
      | _ => rfl
    · exact hkept _ rfl hperforms

theorem Lined.runOperations (h : d.Lined) {operations : List Operation}
    (hops : ∀ op ∈ operations, op ≠ .areturn) (hf : (d.runOperations operations).fault = none) :
    (d.runOperations operations).Lined := by
  induction operations generalizing d with
  | nil => exact h
  | cons op operations ih =>
    obtain ⟨hop, hops⟩ := List.forall_mem_cons.1 hops
    exact ih (h.step hop (Draft.fault_run hf)) hops hf

theorem Lined.openRegion (h : d.Lined) : d.openRegion.Lined := by
  rw [openRegion_eq]
  refine ⟨h.reachable, h.records, fun number hn => ?_⟩
  rw [Array.toList_push, lastLine_concat]
  exact h.line number hn

theorem reachable_plain_areturn (d : Draft) : (d.plain .areturn).reachable = false := by
  unfold plain
  split_ifs with hr hs
  · rfl
  · exact absurd rfl hs
  · simpa using hr

/-- No line is open where control arrives by a branch. -/
theorem line_mark (hr : d.reachable = false) {label : Label}
    (h : (d.mark label).reachable = true) : (d.mark label).line = none := by
  rw [mark_of_unreachable hr] at h ⊢
  obtain ⟨stack, hstack⟩ := Option.isSome_iff_exists.1 h
  simp only [hstack, Option.elim_some]

variable {env : Env} {start : Label} {span : Span} {markers : List String}

variable (env start span) in
/-- The end of a region comes behind the return of its last handler. -/
theorem exists_closeSteps (n : Nat) (hm : markers ≠ []) : ∃ steps,
    closeSteps env start span n markers = steps ++ [.plain .areturn, .mark ⟨n + 1⟩] := by
  have hne : handlerLabels (n + 2) markers ≠ [] := by
    cases markers with
    | nil => exact absurd rfl hm
    | cons => simp [handlerLabels]
  obtain ⟨others, last, hlast⟩ := (List.eq_nil_or_concat _).resolve_left hne
  obtain ⟨before, hbefore⟩ : ∃ before, closeSteps env start span n markers = before ++
      (handlerLabels (n + 2) markers).flatMap (handlerSteps env span) ++ [.mark ⟨n + 1⟩] := ⟨_, rfl⟩
  refine ⟨before ++ others.flatMap (handlerSteps env span) ++ [.markHandler last.1 last.2,
    .line span.line, .invoke .invokevirtual (answerMethod env last.2)], ?_⟩
  rw [hbefore, hlast]
  simp [handlerSteps]

/-- Behind the handlers of a region no line is open. -/
theorem Lined.closeRegion (h : d.Lined)
    (hf : (d.closeRegion env start span markers).fault = none) :
    (d.closeRegion env start span markers).Lined := by
  by_cases hm : markers = []
  · simpa only [Draft.closeRegion, hm, ↓reduceIte] using h
  · have hcloses := closeRegion_closes env start span hm hf
    refine .of_none (hcloses.reachable.trans h.reachable) (hcloses.recordsLines.trans h.records) ?_
    have hreach := hcloses.reachable.trans h.reachable
    obtain ⟨steps, hsteps⟩ := exists_closeSteps env start span d.labels.size hm
    rw [Draft.closeRegion, if_neg hm, hsteps, run_append] at hreach ⊢
    exact line_mark (reachable_plain_areturn _) hreach

end Draft

end SmalltalkJvm
