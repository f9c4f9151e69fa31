import SmalltalkJvm.Proofs.Regions

/-! # The layout of structured code

Running structured code only ever adds to a draft: what was emitted, recorded and protected before
stays as it is. The labels that it places are new ones, and the ranges that it protects end before
the code that follows. So places found in a draft are the same places in every body finished from
it.
-/

namespace SmalltalkJvm

def Instruction.isStraight : Instruction → Bool
  | mark _ | jump .. => false
  | _ => true

namespace Operation

theorem isStraight_instruction (op : Operation) : op.instruction.isStraight = true := by
  cases op <;> try rfl
  case int value =>
    simp only [instruction, Draft.intInstruction]
    split
    · rfl
    · split_ifs <;> rfl

theorem keepsLocals_instruction (op : Operation) : op.instruction.keepsLocals = true := by
  cases op <;> try rfl
  case int value =>
    simp only [instruction, Draft.intInstruction]
    split
    · rfl
    · split_ifs <;> rfl

end Operation

namespace Draft

variable (env : Env)

theorem step_of_unreachable {d : Draft} (hr : d.reachable = false) (op : Operation) :
    d.step op.step = d := by
  cases op <;> simp [Operation.step, step, openLine, plain, discard, pushInt, pushString, load,
    getStatic, invoke, invokeDynamic, hr]
  split <;> rfl

theorem runOperations_of_unreachable {d : Draft} (hr : d.reachable = false)
    (operations : List Operation) : d.runOperations operations = d := by
  induction operations with
  | nil => rfl
  | cons op operations ih =>
    change (d.step op.step).runOperations operations = d
    rw [step_of_unreachable hr, ih]

theorem line_performs {d : Draft} (hr : d.reachable = true) (number : Nat) :
    d.openLine number = d ∨ d.Performs (.line number) (d.openLine number) := by
  unfold openLine
  split_ifs
  · exact .inr ⟨rfl, rfl, hr, rfl, rfl, rfl, rfl, rfl⟩
  · exact .inl rfl

theorem discard_performs {d : Draft} (hr : d.reachable = true) (hf : d.discard.fault = none) :
    d.Performs (.plain .pop) d.discard ∨
      d.Performs (.plain .pop2) d.discard ∧ ∃ t ∈ d.stack.entries, t.isWide = true := by
  unfold discard at hf ⊢
  split at hf
  · rename_i t ht
    split_ifs at hf ⊢ with hw
    · exact .inr ⟨plain_performs hr hf, t, List.mem_of_mem_head? ht, hw⟩
    · exact .inl (plain_performs hr hf)
  · exact .inl (plain_performs hr hf)

/-- A reachable operation adds its instruction. Only a line may add nothing, because it is open
already, and only a wide value is dropped by an instruction of its own. -/
theorem step_operation {d : Draft} (hr : d.reachable = true) (op : Operation)
    (hf : (d.step op.step).fault = none) :
    (d.step op.step = d ∧ ∃ number, op = .line number) ∨
      d.Performs op.instruction (d.step op.step) ∨
      (op = .discard ∧ d.Performs (.plain .pop2) (d.step op.step) ∧
        ∃ t ∈ d.stack.entries, t.isWide = true) := by
  cases op with
  | line number => exact (line_performs hr number).imp (fun h => ⟨h, number, rfl⟩) .inl
  | discard => exact .inr ((discard_performs hr hf).imp id fun h => ⟨rfl, h⟩)
  | dup | areturn => exact .inr (.inl (plain_performs hr hf))
  | int value => exact .inr (.inl (pushInt_performs hr value))
  | string text => exact .inr (.inl (pushString_performs hr text))
  | load slot => exact .inr (.inl (load_performs hr hf))
  | getStatic field => exact .inr (.inl (getStatic_performs hr hf))
  | invokeVirtual method | invokeStatic method => exact .inr (.inl (invoke_performs hr hf))
  | invokeDynamic site => exact .inr (.inl (invokeDynamic_performs hr hf))

structure Extends (d d' : Draft) : Prop where
  code : d.code.toList <+: d'.code.toList
  size : d.labels.size ≤ d'.labels.size
  labels (i : Nat) (h : i < d.labels.size) : d'.labels[i]? = d.labels[i]?
  handlers : d.handlers.toList <+: d'.handlers.toList
  locals : d'.locals = d.locals
  entryLocals : d'.entryLocals = d.entryLocals
  thisClass : d'.thisClass = d.thisClass
  recordsLines : d'.recordsLines = d.recordsLines

theorem Extends.refl (d : Draft) : d.Extends d :=
  ⟨List.prefix_rfl, Nat.le_refl _, fun _ _ => rfl, List.prefix_rfl, rfl, rfl, rfl, rfl⟩

theorem Extends.trans {a b c : Draft} (h : a.Extends b) (k : b.Extends c) : a.Extends c where
  code := h.code.trans k.code
  size := Nat.le_trans h.size k.size
  labels i hi := (k.labels i (Nat.lt_of_lt_of_le hi h.size)).trans (h.labels i hi)
  handlers := h.handlers.trans k.handlers
  locals := k.locals.trans h.locals
  entryLocals := k.entryLocals.trans h.entryLocals
  thisClass := k.thisClass.trans h.thisClass
  recordsLines := k.recordsLines.trans h.recordsLines

theorem Performs.extends {d d' : Draft} {i : Instruction} (h : d.Performs i d')
    (hi : i.keepsLocals = true) : d.Extends d' where
  code := by simp [h.code]
  size := Nat.le_of_eq (by rw [h.labels])
  labels _ _ := by rw [h.labels]
  handlers := by simp [h.handlers]
  locals := h.locals hi
  entryLocals := h.entryLocals
  thisClass := h.thisClass
  recordsLines := h.recordsLines

theorem openRegion_extends (d : Draft) : d.Extends d.openRegion := by
  rw [openRegion_eq]
  refine ⟨by simp, by simp, ?_, List.prefix_rfl, rfl, rfl, rfl, rfl⟩
  intro i hi
  simp [Array.getElem?_push, Nat.ne_of_lt hi]

theorem Closes.extends {start : Label} {span : Span} {markers : List String} {d d' : Draft}
    (h : Closes env start span markers d d') : d.Extends d' where
  code := by simp [h.code]
  size := by rw [h.size]; omega
  labels := h.others
  handlers := by simp [h.entries]
  locals := h.locals
  entryLocals := h.entryLocals
  thisClass := h.thisClass
  recordsLines := h.recordsLines

/-- The labels placed in a draft are its own, and its exception entries are complete: the ends of
the range are placed, and the handler's stack is known to be the exception that is caught. -/
structure WellMarked (d : Draft) : Prop where
  below (label : Label) (h : .mark label ∈ d.code.toList) : label.index < d.labels.size
  start : ∀ e ∈ d.handlers.toList, .mark e.start ∈ d.code.toList
  stop : ∀ e ∈ d.handlers.toList, .mark e.stop ∈ d.code.toList
  caught : ∀ e ∈ d.handlers.toList, ∃ exception, e.catches = some exception ∧
    d.labels[e.handler.index]? = some ⟨some [.object exception], true, true⟩

theorem WellMarked.performs {d d' : Draft} {i : Instruction} (hw : d.WellMarked)
    (h : d.Performs i d') (hi : i.isStraight = true) : d'.WellMarked where
  below label hl := by
    rw [h.code, Array.toList_push, List.mem_append, List.mem_singleton] at hl
    rcases hl with hl | rfl
    · rw [h.labels]
      exact hw.below label hl
    · cases hi
  start e he := by
    rw [h.handlers] at he
    simp [h.code, hw.start e he]
  stop e he := by
    rw [h.handlers] at he
    simp [h.code, hw.stop e he]
  caught e he := by
    rw [h.handlers] at he
    rw [h.labels]
    exact hw.caught e he

theorem WellMarked.openRegion {d : Draft} (hw : d.WellMarked) : d.openRegion.WellMarked := by
  rw [openRegion_eq]
  refine ⟨?_, ?_, ?_, ?_⟩
  · intro label hl
    simp only [Array.toList_push, List.mem_append, List.mem_singleton, Instruction.mark.injEq] at hl
    rcases hl with hl | rfl
    · have := hw.below label hl
      simp only [Array.size_push]
      omega
    · simp [nextLabel]
  · intro e he
    simp [hw.start e he]
  · intro e he
    simp [hw.stop e he]
  · intro e he
    obtain ⟨exception, hc, hl⟩ := hw.caught e he
    have hlt : e.handler.index < d.labels.size := (Array.getElem?_eq_some_iff.1 hl).1
    exact ⟨exception, hc, by simp [Array.getElem?_push, Nat.ne_of_lt hlt, hl]⟩

theorem mark_mem_handlerCode {lines : Bool} {span : Span} {handler : Label × String}
    {label : Label} (h : .mark label ∈ handlerCode env lines span handler) : label = handler.1 := by
  cases lines <;> simpa [handlerCode] using h

theorem Closes.wellMarked {start : Label} {span : Span} {markers : List String} {d d' : Draft}
    (h : Closes env start span markers d d') (hw : d.WellMarked)
    (hs : .mark start ∈ d.code.toList) : d'.WellMarked := by
  have hmem {i : Instruction} (hi : i ∈ d.code.toList) : i ∈ d'.code.toList :=
    h.extends.code.subset hi
  have hentry : ∀ e ∈ d'.handlers.toList, e ∈ d.handlers.toList ∨
      ∃ x ∈ handlerLabels (d.labels.size + 2) markers,
        e = ⟨start, ⟨d.labels.size⟩, x.1, some x.2⟩ := by
    intro e he
    rw [h.entries, List.mem_append, regionEntries, List.mem_map] at he
    rcases he with he | ⟨x, hx, rfl⟩
    · exact .inl he
    · exact .inr ⟨x, hx, rfl⟩
  refine ⟨?_, ?_, ?_, ?_⟩
  · intro label hl
    rw [h.size]
    simp only [h.code, List.mem_append, List.mem_cons, List.mem_flatMap, List.not_mem_nil, or_false,
      Instruction.mark.injEq] at hl
    rcases hl with hl | rfl | ((hl | ⟨x, hx, hl⟩) | rfl)
    · have := hw.below label hl
      omega
    · simp only
      omega
    · split_ifs at hl <;> simp at hl
    · rw [mark_mem_handlerCode env hl]
      have := (mem_handlerLabels hx).2
      omega
    · simp only
      omega
  · intro e he
    rcases hentry e he with he | ⟨x, hx, rfl⟩
    · exact hmem (hw.start e he)
    · exact hmem hs
  · intro e he
    rcases hentry e he with he | ⟨x, hx, rfl⟩
    · exact hmem (hw.stop e he)
    · simp [h.code]
  · intro e he
    rcases hentry e he with he | ⟨x, hx, rfl⟩
    · obtain ⟨exception, hc, hl⟩ := hw.caught e he
      exact ⟨exception, hc, by rw [h.others _ (Array.getElem?_eq_some_iff.1 hl).1, hl]⟩
    · exact ⟨x.2, rfl, h.records x hx⟩

/-- The label behind the handlers stands at the very end. -/
theorem Closes.split_after {start : Label} {span : Span} {markers : List String} {d d' : Draft}
    (h : Closes env start span markers d d') (hw : d.WellMarked) :
    ∃ prior, d'.code.toList = prior ++ [.mark ⟨d.labels.size + 1⟩] ∧
      .mark ⟨d.labels.size + 1⟩ ∉ prior := by
  refine ⟨d.code.toList ++ .mark ⟨d.labels.size⟩ ::
    ((if d.reachable then [.jump .goto ⟨d.labels.size + 1⟩] else []) ++
      (handlerLabels (d.labels.size + 2) markers).flatMap (handlerCode env d.recordsLines span)),
    ?_, ?_⟩
  · rw [h.code]
    simp
  · simp only [List.mem_append, List.mem_cons, List.mem_flatMap, Instruction.mark.injEq,
      Label.mk.injEq]
    rintro (hl | hl | hl | ⟨x, hx, hl⟩)
    · have := hw.below _ hl
      simp only at this
      omega
    · omega
    · split_ifs at hl <;> simp at hl
    · have hx := (mem_handlerLabels hx).1
      rw [← mark_mem_handlerCode env hl] at hx
      simp only at hx
      omega

/-- A handler stands behind the end of the range, and its label nowhere before. -/
theorem Closes.split_handler {start : Label} {span : Span} {markers : List String} {d d' : Draft}
    (h : Closes env start span markers d d') (hw : d.WellMarked) {x : Label × String}
    (hx : x ∈ handlerLabels (d.labels.size + 2) markers) :
    ∃ prior rest, d'.code.toList = prior ++ (handlerCode env d.recordsLines span x ++ rest) ∧
      .mark x.1 ∉ prior ∧ d.code.size < prior.length := by
  obtain ⟨before, behind, hsplit⟩ := List.append_of_mem hx
  have hnodup := nodup_handlerLabels (d.labels.size + 2) markers
  rw [hsplit, List.map_append, List.map_cons] at hnodup
  refine ⟨d.code.toList ++ .mark ⟨d.labels.size⟩ ::
    ((if d.reachable then [.jump .goto ⟨d.labels.size + 1⟩] else []) ++
      before.flatMap (handlerCode env d.recordsLines span)),
    behind.flatMap (handlerCode env d.recordsLines span) ++ [.mark ⟨d.labels.size + 1⟩], ?_, ?_, ?_⟩
  · rw [h.code, hsplit]
    simp
  · simp only [List.mem_append, List.mem_cons, List.mem_flatMap, Instruction.mark.injEq]
    have hlabel := (mem_handlerLabels hx).1
    rintro (hl | hl | hl | ⟨y, hy, hl⟩)
    · have := hw.below _ hl
      omega
    · rw [hl] at hlabel
      simp only at hlabel
      omega
    · split_ifs at hl <;> simp at hl
    · refine (List.nodup_append.1 hnodup).2.2 _ (List.mem_map_of_mem hy) _ List.mem_cons_self ?_
      rw [mark_mem_handlerCode env hl]
  · simp only [List.length_append, List.length_cons, Array.length_toList]
    omega

theorem fault_openRegion {d : Draft} (hf : d.openRegion.fault = none) : d.fault = none :=
  fault_run hf

theorem fault_closeRegion {d : Draft} {start : Label} {span : Span} {markers : List String}
    (hf : (d.closeRegion env start span markers).fault = none) : d.fault = none := by
  unfold closeRegion at hf
  split_ifs at hf
  · exact hf
  · exact fault_run hf

/-- What holds along one instruction, which neither places a label nor branches, holds along
operations that emit such as are asked for. -/
theorem runOperations_induction {R : Draft → Draft → Prop} (P : Instruction → Prop)
    (refl : ∀ d, R d d) (trans : ∀ {a b c}, R a b → R b c → R a c)
    (performs : ∀ {d i d'}, d.reachable = true → d.Performs i d' → i.isStraight = true →
      i.keepsLocals = true → P i → R d d')
    (hpop : P (.plain .pop2)) {d : Draft} {operations : List Operation}
    (hops : ∀ op ∈ operations, P op.instruction)
    (hf : (d.runOperations operations).fault = none) : R d (d.runOperations operations) := by
  induction operations generalizing d with
  | nil => exact refl d
  | cons op operations ih =>
    obtain ⟨hop, hops⟩ := List.forall_mem_cons.1 hops
    refine trans ?_ (ih hops hf)
    cases hr : d.reachable with
    | false =>
      rw [step_of_unreachable hr]
      exact refl d
    | true =>
      rcases step_operation hr op (fault_run hf) with ⟨h, -⟩ | h | ⟨-, h, -⟩
      · rw [h]
        exact refl d
      · exact performs hr h op.isStraight_instruction op.keepsLocals_instruction hop
      · exact performs hr h rfl rfl hpop

theorem handlers_runOperations {d : Draft} {operations : List Operation}
    (hf : (d.runOperations operations).fault = none) :
    (d.runOperations operations).handlers = d.handlers :=
  runOperations_induction (R := fun d d' => d'.handlers = d.handlers) (fun _ => True)
    (fun _ => rfl) (fun h k => k.trans h) (fun _ h _ _ _ => h.handlers) trivial
    (fun _ _ => trivial) hf

theorem wellMarked_method (locals : List VerificationType) (lines : Bool) :
    (method locals lines).WellMarked :=
  ⟨by simp [method], by simp [method], by simp [method], by simp [method]⟩

structure Finishes (d : Draft) (b : MethodBody) : Prop where
  fault : d.fault = none
  reachable : d.reachable = false
  placed : ∀ label ∈ d.requiredLabels, d.isPlaced label = true
  instructions : b.instructions = d.code.toList
  handlers : b.handlers = d.handlers.toList
  frames : b.frames = d.frames
  locals : b.locals = d.entryLocals
  maxStack : b.maxStack = d.peak.toUInt16
  maxLocals : b.maxLocals = (totalSlots d.locals).toUInt16

theorem finishes_of_finish {d : Draft} {b : MethodBody} (h : d.finish = .ok b) :
    d.Finishes b := by
  unfold finish at h
  split at h
  · cases h
  · rename_i hfault
    split_ifs at h with hr
    split at h
    · cases h
    · rename_i hplaced
      cases h
      refine ⟨hfault, by simpa using hr, fun label hl => ?_, rfl, rfl, rfl, rfl, rfl, rfl⟩
      simpa using List.find?_eq_none.1 hplaced label hl

/-- A draft that goes on from another by whole constructs: the ranges that are protected on the way
start on the way. -/
structure Builds (d d' : Draft) : Prop extends Extends d d' where
  wellMarked : d.WellMarked → d'.WellMarked
  entries : ∀ e ∈ d'.handlers.toList, e ∈ d.handlers.toList ∨ d.labels.size ≤ e.start.index

theorem Builds.refl (d : Draft) : d.Builds d := ⟨.refl d, id, fun _ he => .inl he⟩

theorem Builds.trans {a b c : Draft} (h : a.Builds b) (k : b.Builds c) : a.Builds c := by
  refine ⟨h.toExtends.trans k.toExtends, fun hw => k.wellMarked (h.wellMarked hw), fun e he => ?_⟩
  rcases k.entries e he with he | he
  · exact h.entries e he
  · exact .inr (Nat.le_trans h.size he)

theorem openRegion_builds (d : Draft) : d.Builds d.openRegion :=
  ⟨openRegion_extends d, WellMarked.openRegion, fun e he => .inl (by rwa [openRegion_eq] at he)⟩

theorem runOperations_builds {d : Draft} {operations : List Operation}
    (hf : (d.runOperations operations).fault = none) : d.Builds (d.runOperations operations) := by
  refine runOperations_induction (fun _ => True) Builds.refl Builds.trans ?_ trivial
    (fun _ _ => trivial) hf
  intro d i d' hr h hs hl _
  exact ⟨h.extends hl, fun hw => hw.performs h hs, fun e he => .inl (by rwa [h.handlers] at he)⟩

end Draft

namespace Code

open Draft

variable (env : Env)

theorem fault_run {c : Code} {d : Draft} (hf : (c.run env d).fault = none) : d.fault = none := by
  induction c generalizing d with
  | operations ops => exact Draft.fault_run hf
  | append first second ihFirst ihSecond => exact ihFirst (ihSecond hf)
  | marker name => exact hf
  | region span body ih => exact fault_openRegion (ih (fault_closeRegion env hf))
  | statement isLast body ih => exact ih (Draft.fault_run hf)

/-- Running code goes on from the draft and keeps its labels in order. -/
theorem run_builds {c : Code} {d : Draft} (hf : (c.run env d).fault = none) :
    d.Builds (c.run env d) := by
  induction c generalizing d with
  | operations ops => exact runOperations_builds hf
  | append first second ihFirst ihSecond => exact (ihFirst (fault_run env hf)).trans (ihSecond hf)
  | marker name => exact .refl d
  | region span body ih =>
    have hbody := (openRegion_builds d).trans (ih (fault_closeRegion env hf))
    by_cases hm : body.markers = []
    · simp only [run, closeRegion, hm, ↓reduceIte]
      exact hbody
    · have hclose := closeRegion_closes env d.nextLabel span hm hf
      refine ⟨hbody.toExtends.trans hclose.extends, fun hw => ?_, fun e he => ?_⟩
      · refine hclose.wellMarked env (hbody.wellMarked hw) ?_
        exact (ih (fault_closeRegion env hf)).code.subset (by simp [openRegion_eq])
      · rw [run, hclose.entries, List.mem_append, regionEntries, List.mem_map] at he
        rcases he with he | ⟨x, -, rfl⟩
        · exact hbody.entries e he
        · exact .inr (Nat.le_refl _)
  | statement isLast body ih => exact (ih (Draft.fault_run hf)).trans (runOperations_builds hf)

end Code
end SmalltalkJvm
