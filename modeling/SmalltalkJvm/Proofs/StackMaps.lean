import SmalltalkJvm.Proofs.Verifier

/-! # Drafts are verified

A draft records the stack of every label that is branched to, and never compares two ways into it.
That its frames are right follows from how regions are closed: the one branch to the label behind
the handlers comes from the end of the range, nothing falls into that label, and the handlers, which
stand between, are entered by exceptions alone.
-/

namespace SmalltalkJvm

def LabelRecord.frame? (r : LabelRecord) : Option (List VerificationType) :=
  if r.targeted then r.stack else none

theorem LabelsAhead.append {first second : List Instruction} (h₁ : LabelsAhead first)
    (h₂ : LabelsAhead second) {n : Nat}
    (hfirst : ∀ i ∈ first, ∀ label, i.label? = some label → label.index < n)
    (hsecond : ∀ i ∈ second, ∀ label, i.label? = some label → n ≤ label.index) :
    LabelsAhead (first ++ second) := by
  refine List.pairwise_append.2 ⟨h₁, h₂, fun i hi j hj label hmark hlabel => ?_⟩
  have hlt := hfirst i hi label (by rw [hmark]; rfl)
  have hle := hsecond j hj label hlabel
  omega

theorem labelsAhead_of_isStraight {code : List Instruction}
    (h : ∀ i ∈ code, i.isStraight = true) : LabelsAhead code := by
  refine List.Pairwise.imp_mem.2 (List.pairwise_of_forall fun i j hi hj label hmark hlabel => ?_)
  rw [Instruction.label?_of_isStraight (h j hj)] at hlabel
  cases hlabel

namespace Draft

/-- The stack, top first, that the frame of a label will record. -/
def frame? (d : Draft) (label : Label) : Option (List VerificationType) :=
  d.labels[label.index]?.bind LabelRecord.frame?

/-- The types with which control goes on to the next instruction, if it does. -/
def pending (d : Draft) : Option Flow := if d.reachable then some d.flow else none

theorem pending_of_reachable {d : Draft} (h : d.reachable = true) : d.pending = some d.flow := by
  simp [pending, h]

theorem pending_of_unreachable {d : Draft} (h : d.reachable = false) : d.pending = none := by
  simp [pending, h]

/-- A step that emits one instruction, or none out of reach, passes. -/
theorem Performs.passes {P : Flow → Instruction → Prop} {d d' : Draft} {i : Instruction}
    (h : d.Performs i d')
    (hr : d.reachable = true) (hi : i.isStraight = true) (hP : P d.flow i)
    (frame? : Label → Option (List VerificationType)) (locals : List VerificationType) :
    Passes P frame? d.thisClass locals d.code.size d.pending i d'.pending := by
  have hpending : d'.pending = if i.endsFlow then none else some d'.flow := by
    cases hends : i.endsFlow <;> simp [pending, h.reachable, hends]
  rw [pending_of_reachable hr, hpending]
  exact .straight hi h.effect hP

theorem mem_frames {d : Draft} {f : Frame} :
    f ∈ d.frames ↔ d.frame? f.label = some f.stack.reverse := by
  obtain ⟨⟨n⟩, stack⟩ := f
  simp only [frames, List.mem_filterMap, frame?, Option.bind_eq_some_iff, LabelRecord.frame?,
    Prod.exists, List.mem_zipIdx_iff_getElem?, Array.getElem?_toList]
  constructor
  · rintro ⟨r, i, hr, h⟩
    split_ifs at h with ht
    obtain ⟨entries, hs, hf⟩ := Option.map_eq_some_iff.1 h
    simp only [Frame.mk.injEq, Label.mk.injEq] at hf
    obtain ⟨rfl, rfl⟩ := hf
    exact ⟨r, hr, by rw [if_pos ht, hs, List.reverse_reverse]⟩
  · rintro ⟨r, hr, h⟩
    split_ifs at h with ht
    exact ⟨r, n, hr, by rw [if_pos ht, h, Option.map_some, List.reverse_reverse]⟩

theorem nodup_frames (d : Draft) : (d.frames.map Frame.label).Nodup := by
  refine List.pairwise_map.2 (List.Pairwise.filterMap _ ?_
    (R := fun a b => a.2 < b.2) ?_)
  · rintro ⟨r, i⟩ ⟨r', i'⟩ hlt f hf f' hf' heq
    have hindex {r : LabelRecord} {i : Nat} {f : Frame}
        (h : (if r.targeted then r.stack.map fun stack => (⟨⟨i⟩, stack.reverse⟩ : Frame)
          else none) = some f) : f.label = ⟨i⟩ := by
      split_ifs at h
      obtain ⟨entries, -, rfl⟩ := Option.map_eq_some_iff.1 h
      rfl
    rw [hindex hf, hindex hf', Label.mk.injEq] at heq
    exact Nat.ne_of_lt hlt heq
  · have hnumbers : (d.labels.toList.zipIdx.map Prod.snd).Pairwise (· < ·) := by
      rw [List.zipIdx_map_snd]
      exact List.pairwise_lt_range'
    exact List.pairwise_map.1 hnumbers

/-- The frames of a finished body are those of the draft. -/
theorem Finishes.frame?_eq {d : Draft} {b : MethodBody} (h : d.Finishes b) :
    b.frame? = d.frame? := by
  funext label
  cases hfind : b.frames.find? fun f => f.label = label with
  | some f =>
    have hmem := List.mem_of_find?_eq_some hfind
    have hlabel : f.label = label := by simpa using List.find?_some hfind
    rw [h.frames, mem_frames, hlabel] at hmem
    rw [MethodBody.frame?, hfind, hmem, Option.map_some]
  | none =>
    rw [MethodBody.frame?, hfind, Option.map_none]
    cases hframe : d.frame? label with
    | none => rfl
    | some stack =>
      have hmem : ⟨label, stack.reverse⟩ ∈ d.frames := by
        rw [mem_frames, hframe, List.reverse_reverse]
      rw [← h.frames] at hmem
      simpa using List.find?_eq_none.1 hfind _ hmem

/-- What is asked of every instruction that a run of steps emits where control comes to it. -/
def Along (P : Flow → Instruction → Prop) : Draft → List Step → Prop
  | _, [] => True
  | d, s :: steps =>
    (d.reachable = true → ∀ i, d.Performs i (d.step s) → P d.flow i) ∧ Along P (d.step s) steps

theorem along_any (d : Draft) (steps : List Step) : d.Along Any steps := by
  induction steps generalizing d with
  | nil => trivial
  | cons s steps ih => exact ⟨fun _ _ _ => trivial, ih _⟩

structure HandlerHolds (env : Env) (P : Flow → Instruction → Prop)
    (locals : List VerificationType) (marker : String) : Prop where
  line (number : Nat) : P ⟨[.object marker], locals⟩ (.line number)
  call : P ⟨[.object marker], locals⟩ (.invoke .invokevirtual (answerMethod env marker))
  answer {type : FieldType}
    (h : MethodDescriptor.parse (answerMethod env marker).descriptor = .ok ⟨[], some type⟩) :
    P ⟨[.ofFieldType type], locals⟩ (.plain .areturn)

/-- A draft goes on by whole constructs whose code is verified: labels in it are new, each stands
behind what branches to it, and those that need a frame are placed. -/
structure Lays (P : Flow → Instruction → Prop) (frame? : Label → Option (List VerificationType))
    (d d' : Draft) (added : List Instruction) : Prop extends Extends d d' where
  emitted : d'.code.toList = d.code.toList ++ added
  verifies : Verifies P frame? d.thisClass d.entryLocals d.code.size d.pending added d'.pending
  ahead : LabelsAhead added
  fresh : ∀ i ∈ added, ∀ label, i.label? = some label →
    d.labels.size ≤ label.index ∧ label.index < d'.labels.size
  keepsLocals : ∀ i ∈ added, i.keepsLocals = true
  targets (i : Nat) (hi : d.labels.size ≤ i) (r : LabelRecord) (hr : d'.labels[i]? = some r)
    (ht : r.targeted = true) : .mark ⟨i⟩ ∈ added

section

variable {P : Flow → Instruction → Prop} {frame? : Label → Option (List VerificationType)}

theorem Lays.refl (d : Draft) : Lays P frame? d d [] where
  toExtends := .refl d
  emitted := by simp
  verifies := .nil _ _
  ahead := .nil
  fresh := by simp
  keepsLocals := by simp
  targets i hi r hr := by
    have := (Array.getElem?_eq_some_iff.1 hr).1
    omega

theorem Lays.trans {d d₁ d' : Draft} {first second : List Instruction}
    (h : Lays P frame? d d₁ first) (k : Lays P frame? d₁ d' second) :
    Lays P frame? d d' (first ++ second) where
  toExtends := h.toExtends.trans k.toExtends
  emitted := by rw [k.emitted, h.emitted, List.append_assoc]
  verifies := by
    refine h.verifies.append ?_
    have hsize : d.code.size + first.length = d₁.code.size := by
      rw [← Array.length_toList, ← Array.length_toList, h.emitted, List.length_append]
    rw [hsize, ← h.thisClass, ← h.entryLocals]
    exact k.verifies
  ahead := h.ahead.append k.ahead (fun i hi label hl => (h.fresh i hi label hl).2)
    fun i hi label hl => (k.fresh i hi label hl).1
  fresh i hi label hl := by
    rcases List.mem_append.1 hi with hi | hi
    · exact ⟨(h.fresh i hi label hl).1, Nat.lt_of_lt_of_le (h.fresh i hi label hl).2 k.size⟩
    · exact ⟨Nat.le_trans h.size (k.fresh i hi label hl).1, (k.fresh i hi label hl).2⟩
  keepsLocals i hi := (List.mem_append.1 hi).elim (h.keepsLocals i) (k.keepsLocals i)
  targets i hi r hr ht := by
    rw [List.mem_append]
    by_cases hlt : i < d₁.labels.size
    · rw [k.labels i hlt] at hr
      exact .inl (h.targets i hi r hr ht)
    · exact .inr (k.targets i (Nat.le_of_not_lt hlt) r hr ht)

theorem Performs.lays {d d' : Draft} {i : Instruction} (h : d.Performs i d')
    (hr : d.reachable = true) (hs : i.isStraight = true) (hl : i.keepsLocals = true)
    (hP : P d.flow i) : Lays P frame? d d' [i] := by
  refine ⟨h.extends hl, by simp [h.code], .single (h.passes hr hs hP _ _),
    List.pairwise_singleton _ _, ?_, by simpa using hl, ?_⟩
  · intro j hj label hlabel
    rw [List.mem_singleton.1 hj, Instruction.label?_of_isStraight hs] at hlabel
    cases hlabel
  · intro j hj r hrecord
    rw [h.labels] at hrecord
    have := (Array.getElem?_eq_some_iff.1 hrecord).1
    omega

theorem runOperations_lays {d : Draft} {operations : List Operation}
    (hf : (d.runOperations operations).fault = none)
    (hP : d.Along P (operations.map Operation.step)) :
    ∃ code, Lays P frame? d (d.runOperations operations) code := by
  induction operations generalizing d with
  | nil => exact ⟨[], .refl d⟩
  | cons op operations ih =>
    obtain ⟨rest, hrest⟩ := ih hf hP.2
    cases hr : d.reachable with
    | false =>
      rw [step_of_unreachable hr] at hrest
      refine ⟨rest, ?_⟩
      change Lays P frame? d ((d.step op.step).runOperations operations) rest
      rwa [step_of_unreachable hr]
    | true =>
      rcases step_operation hr op (fault_run hf) with ⟨h, -⟩ | h | ⟨-, h, -⟩
      · rw [h] at hrest
        refine ⟨rest, ?_⟩
        change Lays P frame? d ((d.step op.step).runOperations operations) rest
        rwa [h]
      · exact ⟨_, (h.lays hr op.isStraight_instruction op.keepsLocals_instruction
          (hP.1 hr _ h)).trans hrest⟩
      · exact ⟨_, (h.lays hr rfl rfl (hP.1 hr _ h)).trans hrest⟩

theorem openRegion_lays (d : Draft) (hframe : frame? d.nextLabel = none) :
    Lays P frame? d d.openRegion [.mark d.nextLabel] where
  toExtends := openRegion_extends d
  emitted := by simp [openRegion_eq]
  verifies := by
    have hpending : d.openRegion.pending = d.pending := by simp [openRegion_eq, pending, flow]
    rw [hpending]
    exact .single (.unframed hframe)
  ahead := List.pairwise_singleton _ _
  fresh := by simp [openRegion_eq, Instruction.label?, nextLabel]
  keepsLocals := by simp [Instruction.keepsLocals]
  targets i hi r hr ht := by
    rw [openRegion_eq, Array.getElem?_push] at hr
    split_ifs at hr with heq
    · cases hr
      cases ht
    · have := (Array.getElem?_eq_some_iff.1 hr).1
      omega

/-- Frames agree with what a draft knows of its labels. -/
def Framed (frame? : Label → Option (List VerificationType)) (d : Draft) : Prop :=
  ∀ label, label.index < d.labels.size → frame? label = d.frame? label

theorem Framed.of_extends {d d' : Draft} (hframe : Framed frame? d') (h : d.Extends d') :
    Framed frame? d := by
  intro label hlabel
  rw [hframe label (Nat.lt_of_lt_of_le hlabel h.size), Draft.frame?, h.labels _ hlabel,
    Draft.frame?]

theorem Framed.eq_of_record {d : Draft} (hframe : Framed frame? d) {i : Nat} {r : LabelRecord}
    (h : d.labels[i]? = some r) : frame? ⟨i⟩ = r.frame? := by
  rw [hframe ⟨i⟩ (Array.getElem?_eq_some_iff.1 h).1, Draft.frame?, h, Option.bind_some]

theorem label?_handlerCode (env : Env) {lines : Bool} {span : Span} {handler : Label × String}
    {i : Instruction} {label : Label} (hi : i ∈ handlerCode env lines span handler)
    (h : i.label? = some label) : label = handler.1 := by
  cases lines <;> simp only [handlerCode, Bool.false_eq_true, ↓reduceIte, List.cons_append,
    List.nil_append, List.mem_cons, List.not_mem_nil, or_false] at hi
  · rcases hi with rfl | rfl | rfl <;> simp_all [Instruction.label?]
  · rcases hi with rfl | rfl | rfl | rfl <;> simp_all [Instruction.label?]

theorem labelsAhead_handlerCode (env : Env) {lines : Bool} {span : Span}
    {handler : Label × String} : LabelsAhead (handlerCode env lines span handler) := by
  cases lines <;> simp [LabelsAhead, handlerCode, Instruction.label?]

/-- A handler starts from its frame and ends the flow. -/
theorem verifies_handlerCode (env : Env) (this : Option String) (locals : List VerificationType)
    (place : Nat) (lines : Bool) (span : Span) {handler : Label × String}
    (hframe : frame? handler.1 = some [.object handler.2]) (hanswers : AnswersOne env handler.2)
    (hP : HandlerHolds env P locals handler.2) :
    Verifies P frame? this locals place none (handlerCode env lines span handler) none := by
  obtain ⟨type, hparse⟩ := hanswers
  have hcall (place : Nat) :
      (Instruction.invoke .invokevirtual (answerMethod env handler.2)).effect? this place
        ⟨[.object handler.2], locals⟩ = some ⟨[.ofFieldType type], locals⟩ := by
    simp only [Instruction.effect?, hparse, Except.toOption, Option.bind_some]
    rfl
  have hreturn (place : Nat) : (Instruction.plain .areturn).effect? this place
      ⟨[.ofFieldType type], locals⟩ = some ⟨[], locals⟩ := rfl
  have htail (place : Nat) : Verifies P frame? this locals place
      (some ⟨[.object handler.2], locals⟩)
      [.invoke .invokevirtual (answerMethod env handler.2), .plain .areturn] none :=
    .cons (.straight rfl (hcall place) hP.call)
      (.cons (.straight rfl (hreturn _) (hP.answer hparse)) (.nil _ _))
  have hmark : Passes P frame? this locals place none (.mark handler.1)
      (some ⟨[.object handler.2], locals⟩) := .framed hframe (by rintro f ⟨⟩)
  cases lines with
  | false => exact .cons hmark (htail _)
  | true => exact .cons hmark (.cons (.straight rfl rfl (hP.line _)) (htail _))

theorem verifies_handlers (env : Env) (this : Option String) (locals : List VerificationType)
    (place : Nat) (lines : Bool) (span : Span) {handlers : List (Label × String)}
    (h : ∀ x ∈ handlers, frame? x.1 = some [.object x.2] ∧ AnswersOne env x.2 ∧
      HandlerHolds env P locals x.2) :
    Verifies P frame? this locals place none (handlers.flatMap (handlerCode env lines span))
      none := by
  induction handlers generalizing place with
  | nil => exact .nil _ _
  | cons x handlers ih =>
    obtain ⟨⟨hframe, hanswers, hP⟩, hrest⟩ := List.forall_mem_cons.1 h
    exact (verifies_handlerCode env this locals place lines span hframe hanswers hP).append
      (ih _ hrest)

theorem labelsAhead_handlers (env : Env) (lines : Bool) (span : Span) (first : Nat)
    (markers : List String) :
    LabelsAhead ((handlerLabels first markers).flatMap (handlerCode env lines span)) := by
  refine List.pairwise_flatMap.2 ⟨fun x _ => labelsAhead_handlerCode env, ?_⟩
  have hnodup := nodup_handlerLabels first markers
  refine (List.pairwise_map.1 hnodup).imp fun {x y} hne i hi j hj label hmark hlabel => hne ?_
  rw [← label?_handlerCode env hi (by rw [hmark]; rfl), label?_handlerCode env hj hlabel]

theorem mem_of_mem_handlerLabels {first : Nat} {markers : List String} {x : Label × String}
    (h : x ∈ handlerLabels first markers) : x.2 ∈ markers := by
  induction markers generalizing first with
  | nil => cases h
  | cons marker markers ih =>
    rcases List.mem_cons.1 h with rfl | h
    · exact List.mem_cons_self
    · exact List.mem_cons_of_mem _ (ih h)

def closeCode (env : Env) (span : Span) (markers : List String) (d : Draft) : List Instruction :=
  .mark ⟨d.labels.size⟩ ::
    ((if d.reachable then [.jump .goto ⟨d.labels.size + 1⟩] else []) ++
      (handlerLabels (d.labels.size + 2) markers).flatMap (handlerCode env d.recordsLines span) ++
      [.mark ⟨d.labels.size + 1⟩])

section

variable {env : Env} {start : Label} {span : Span} {markers : List String} {d d' : Draft}

/-- Closing code has labels, branches and lines, and it calls for answers and returns them. -/
theorem forall_mem_closeCode {Q : Instruction → Prop} (hmark : ∀ label, Q (.mark label))
    (hjump : ∀ label, Q (.jump .goto label)) (hline : ∀ number, Q (.line number))
    (hcall : ∀ marker, Q (.invoke .invokevirtual (answerMethod env marker)))
    (hreturn : Q (.plain .areturn)) : ∀ i ∈ closeCode env span markers d, Q i := by
  intro i hi
  simp only [closeCode, handlerCode, List.mem_cons, List.mem_append, List.mem_flatMap,
    List.not_mem_nil, or_false, List.mem_ite_nil_right] at hi
  rcases hi with rfl | (⟨-, rfl⟩ | ⟨x, -, (rfl | ⟨-, rfl⟩) | rfl | rfl⟩) | rfl
  · exact hmark _
  · exact hjump _
  · exact hmark _
  · exact hline _
  · exact hcall _
  · exact hreturn
  · exact hmark _

/-- The branch past the handlers, if control comes to the end of the range. -/
theorem verifies_leave (hlocals : d.locals = d.entryLocals) {label : Label}
    (hframe : frame? label = d.arriving) (place : Nat) :
    Verifies P frame? d.thisClass d.entryLocals place d.pending
      (if d.reachable then [.jump .goto label] else []) none := by
  cases hr : d.reachable with
  | false =>
    rw [pending_of_unreachable hr]
    exact .nil _ _
  | true =>
    rw [arriving_of_reachable hr] at hframe
    rw [pending_of_reachable hr]
    exact .single (.branch hframe hlocals)

/-- Behind the handlers control goes on as it came to the end of the range. -/
theorem Closes.passes_after (h : Closes env start span markers d d')
    (hlocals : d.locals = d.entryLocals) (hframe : frame? ⟨d.labels.size + 1⟩ = d.arriving)
    (place : Nat) :
    Passes P frame? d.thisClass d.entryLocals place none (.mark ⟨d.labels.size + 1⟩)
      d'.pending := by
  cases hr : d.reachable with
  | false =>
    rw [arriving_of_unreachable hr] at hframe
    rw [pending_of_unreachable (h.reachable.trans hr)]
    exact .unframed hframe
  | true =>
    rw [arriving_of_reachable hr] at hframe
    rw [pending_of_reachable (h.reachable.trans hr), h.flow hr, Draft.flow, hlocals]
    exact .framed hframe (by rintro f ⟨⟩)

theorem Closes.verifies (h : Closes env start span markers d d')
    (hlocals : d.locals = d.entryLocals) (hframed : Framed frame? d')
    (hP : ∀ marker ∈ markers, HandlerHolds env P d.entryLocals marker) :
    Verifies P frame? d.thisClass d.entryLocals d.code.size d.pending
      (closeCode env span markers d) d'.pending := by
  have hafter : frame? ⟨d.labels.size + 1⟩ = d.arriving := by
    rw [hframed.eq_of_record h.after, LabelRecord.frame?]
    cases hr : d.reachable <;> simp [arriving, hr]
  refine .cons (.unframed (by rw [hframed.eq_of_record h.stop]; rfl)) ?_
  refine ((verifies_leave hlocals hafter _).append (verifies_handlers env _ _ _ _ _ ?_)).append
    (.single (h.passes_after hlocals hafter _))
  intro x hx
  exact ⟨hframed.eq_of_record (h.records x hx), h.answers x hx, hP _ (mem_of_mem_handlerLabels hx)⟩

theorem label?_closeCode {label : Label} {i : Instruction}
    (hi : i ∈ closeCode env span markers d) (hlabel : i.label? = some label) :
    label.index = d.labels.size ∨ label.index = d.labels.size + 1 ∨
      ∃ x ∈ handlerLabels (d.labels.size + 2) markers, label = x.1 := by
  simp only [closeCode, List.mem_cons, List.mem_append, List.mem_flatMap, List.not_mem_nil,
    or_false] at hi
  rcases hi with rfl | (hi | ⟨x, hx, hi⟩) | rfl
  · cases hlabel
    exact .inl rfl
  · split_ifs at hi
    · obtain rfl := List.mem_singleton.1 hi
      cases hlabel
      exact .inr (.inl rfl)
    · cases hi
  · exact .inr (.inr ⟨x, hx, label?_handlerCode env hi hlabel⟩)
  · cases hlabel
    exact .inr (.inl rfl)

theorem labelsAhead_closeCode : LabelsAhead (closeCode env span markers d) := by
  have hhandler {label : Label} {i : Instruction}
      (hi : i ∈ (handlerLabels (d.labels.size + 2) markers).flatMap
        (handlerCode env d.recordsLines span))
      (hlabel : i.label? = some label) : d.labels.size + 2 ≤ label.index := by
    obtain ⟨x, hx, hi⟩ := List.mem_flatMap.1 hi
    rw [label?_handlerCode env hi hlabel]
    exact (mem_handlerLabels hx).1
  have hleave (i : Instruction) (hi : i ∈ if d.reachable then
      [Instruction.jump .goto ⟨d.labels.size + 1⟩] else []) :
      i = .jump .goto ⟨d.labels.size + 1⟩ := by
    split_ifs at hi
    · exact List.mem_singleton.1 hi
    · cases hi
  refine List.pairwise_cons.2 ⟨?_, List.pairwise_append.2 ⟨List.pairwise_append.2 ⟨?_, ?_, ?_⟩,
    List.pairwise_singleton _ _, ?_⟩⟩
  · intro i hi label hmark hlabel
    cases hmark
    rcases List.mem_append.1 hi with hi | hi
    · rcases List.mem_append.1 hi with hi | hi
      · rw [hleave i hi] at hlabel
        simp [Instruction.label?] at hlabel
      · have := hhandler hi hlabel
        simp only at this
        omega
    · rw [List.mem_singleton.1 hi] at hlabel
      simp [Instruction.label?] at hlabel
  · split_ifs
    · exact List.pairwise_singleton _ _
    · exact .nil
  · exact labelsAhead_handlers env ..
  · intro i hi j hj label hmark
    rw [hleave i hi] at hmark
    cases hmark
  · intro i hi j hj label hmark hlabel
    rw [List.mem_singleton.1 hj] at hlabel
    cases hlabel
    rcases List.mem_append.1 hi with hi | hi
    · rw [hleave i hi] at hmark
      cases hmark
    · have := hhandler hi (by rw [hmark]; rfl)
      simp only at this
      omega

theorem Closes.lays (h : Closes env start span markers d d')
    (hlocals : d.locals = d.entryLocals) (hframed : Framed frame? d')
    (hP : ∀ marker ∈ markers, HandlerHolds env P d.entryLocals marker) :
    Lays P frame? d d' (closeCode env span markers d) where
  toExtends := h.extends
  emitted := h.code
  verifies := h.verifies hlocals hframed hP
  ahead := labelsAhead_closeCode
  fresh i hi label hlabel := by
    rw [h.size]
    rcases label?_closeCode hi hlabel with hl | hl | ⟨x, hx, rfl⟩
    · omega
    · omega
    · have := mem_handlerLabels hx
      omega
  keepsLocals :=
    forall_mem_closeCode (fun _ => rfl) (fun _ => rfl) (fun _ => rfl) (fun _ => rfl) rfl
  targets i hi r hr ht := by
    rcases Nat.lt_trichotomy i (d.labels.size + 1) with hlt | rfl | hgt
    · obtain rfl : i = d.labels.size := by omega
      rw [h.stop, Option.some.injEq] at hr
      rw [← hr] at ht
      cases ht
    · simp [closeCode]
    · have hsize := (Array.getElem?_eq_some_iff.1 hr).1
      rw [h.size] at hsize
      obtain ⟨x, hx, rfl⟩ := exists_handlerLabel hgt hsize
      simp only [closeCode, List.mem_cons, List.mem_append, List.mem_flatMap]
      exact .inr (.inl (.inr ⟨x, hx, by simp [handlerCode]⟩))

end

end

end Draft

namespace Code

open Draft

def Each (env : Env) (P : Flow → Instruction → Prop) : Code → Draft → Prop
  | operations ops, d => d.Along P (ops.map Operation.step)
  | append first second, d => first.Each env P d ∧ second.Each env P (first.run env d)
  | marker _, _ => True
  | region _ body, d =>
    body.Each env P d.openRegion ∧ ∀ marker ∈ body.markers, HandlerHolds env P d.entryLocals marker
  | statement isLast body, d =>
    body.Each env P d ∧ (body.run env d).Along P
      ((settling env isLast d.stack.depth (body.run env d).stack.depth).map Operation.step)

/-- Code is verified wherever it runs, if the frames are those of the draft it ends with. -/
theorem run_lays (env : Env) {P : Flow → Instruction → Prop}
    {frame? : Label → Option (List VerificationType)} {c : Code} {d : Draft}
    (hf : (c.run env d).fault = none) (hP : c.Each env P d) (hlocals : d.locals = d.entryLocals)
    (hframed : Framed frame? (c.run env d)) : ∃ added, Lays P frame? d (c.run env d) added := by
  induction c generalizing d with
  | operations ops => exact runOperations_lays hf hP
  | append first second ihFirst ihSecond =>
    have hfirst := run_builds env (fault_run env hf)
    have hsecond : (first.run env d).Builds (second.run env (first.run env d)) := run_builds env hf
    obtain ⟨a₁, h₁⟩ := ihFirst (fault_run env hf) hP.1 hlocals
      (hframed.of_extends hsecond.toExtends)
    obtain ⟨a₂, h₂⟩ := ihSecond hf hP.2 (by rw [hfirst.locals, hfirst.entryLocals, hlocals]) hframed
    exact ⟨a₁ ++ a₂, h₁.trans h₂⟩
  | marker name => exact ⟨[], .refl d⟩
  | region span body ih =>
    have hbody := fault_closeRegion env hf
    have hopened := openRegion_extends d
    have hbuilds := run_builds env hbody
    have hkept : d.openRegion.locals = d.openRegion.entryLocals := by
      rw [hopened.locals, hopened.entryLocals, hlocals]
    have hopens (hframed : Framed frame? (body.run env d.openRegion)) :
        Lays P frame? d d.openRegion [.mark d.nextLabel] := by
      refine openRegion_lays d ?_
      have hrecord : d.openRegion.labels[d.labels.size]? = some ⟨d.arriving, true, false⟩ := by
        simp [openRegion_eq]
      exact (hframed.of_extends hbuilds.toExtends).eq_of_record hrecord
    by_cases hm : body.markers = []
    · simp only [run, Draft.closeRegion, hm, ↓reduceIte] at hframed ⊢
      obtain ⟨added, h⟩ := ih hbody hP.1 hkept hframed
      exact ⟨_, (hopens hframed).trans h⟩
    · have hclose := closeRegion_closes env d.nextLabel span hm hf
      have hframed' := hframed.of_extends hclose.extends
      obtain ⟨added, h⟩ := ih hbody hP.1 hkept hframed'
      have hentry : (body.run env d.openRegion).entryLocals = d.entryLocals := by
        rw [hbuilds.entryLocals, hopened.entryLocals]
      have hcloses := hclose.lays (by rw [hbuilds.locals, hbuilds.entryLocals, hkept]) hframed
        (by rw [hentry]; exact hP.2)
      exact ⟨_, ((hopens hframed').trans h).trans hcloses⟩
  | statement isLast body ih =>
    have hbody := Draft.fault_run hf
    obtain ⟨a₁, h₁⟩ := ih hbody hP.1 hlocals
      (hframed.of_extends (runOperations_builds hf).toExtends)
    obtain ⟨a₂, h₂⟩ : ∃ added, Lays P frame? (body.run env d) _ added :=
      runOperations_lays hf hP.2
    exact ⟨a₁ ++ a₂, h₁.trans h₂⟩

/-- The body of a method with source text is verified. -/
theorem verified_of_each (env : Env) {P : Flow → Instruction → Prop} {c : Code}
    {locals : List VerificationType} {lines : Bool} {b : MethodBody}
    (h : (c.run env (Draft.method locals lines)).finish = .ok b)
    (hP : c.Each env P (Draft.method locals lines)) : b.Verified none P := by
  have hfin := finishes_of_finish h
  have hframe := hfin.frame?_eq
  have hbuilds := run_builds env hfin.fault
  have hwell := hbuilds.wellMarked (wellMarked_method locals lines)
  obtain ⟨added, hlays⟩ : ∃ added, Lays P b.frame? (Draft.method locals lines) _ added :=
    run_lays env hfin.fault hP rfl fun _ _ => by rw [hframe]
  have hcode : b.instructions = added := by
    rw [hfin.instructions, hlays.emitted]
    simp [Draft.method]
  have hlocals : b.locals = locals := hfin.locals.trans hlays.entryLocals
  refine ⟨?_, ?_, ?_, ?_, ?_, ?_, ?_⟩
  · have hverifies := hlays.verifies
    rw [pending_of_unreachable hfin.reachable] at hverifies
    rw [hcode, hlocals]
    exact hverifies
  · rw [hcode]
    exact hlays.ahead
  · rw [hfin.frames]
    exact nodup_frames _
  · intro label stack hstack
    rw [hframe, Draft.frame?] at hstack
    obtain ⟨r, hr, hstack⟩ := Option.bind_eq_some_iff.1 hstack
    rw [hcode]
    refine hlays.targets label.index (Nat.zero_le _) r hr ?_
    by_contra ht
    simp [LabelRecord.frame?, ht] at hstack
  · intro e he
    rw [hfin.handlers] at he
    rw [hfin.instructions]
    exact ⟨hwell.start e he, hwell.stop e he⟩
  · intro e he
    rw [hfin.handlers] at he
    obtain ⟨exception, hcatches, hrecord⟩ := hwell.caught e he
    exact ⟨exception, hcatches, by rw [hframe, Draft.frame?, hrecord]; rfl⟩
  · intro _
    rw [hcode]
    exact hlays.keepsLocals

theorem each_any (env : Env) (c : Code) (d : Draft) : c.Each env Any d := by
  induction c generalizing d with
  | operations ops => exact along_any d _
  | append first second ihFirst ihSecond => exact ⟨ihFirst d, ihSecond _⟩
  | marker name => trivial
  | region span body ih =>
    exact ⟨ih _, fun _ _ => ⟨fun _ => trivial, trivial, fun _ => trivial⟩⟩
  | statement isLast body ih => exact ⟨ih d, along_any _ _⟩

theorem verified_of_finish (env : Env) {c : Code} {locals : List VerificationType} {lines : Bool}
    {b : MethodBody} (h : (c.run env (Draft.method locals lines)).finish = .ok b) :
    b.Verified none :=
  verified_of_each env h (each_any env c _)

end Code

namespace Draft

def Step.instruction? : Step → Option Instruction
  | plain op => some (.plain op)
  | int value => some (intInstruction value)
  | string text => some (.constant (.string text))
  | load slot => some (.slot .aload slot)
  | store slot => some (.slot .astore slot)
  | create className => some (.classRef .new className)
  | getStatic field => some (.field .getstatic field)
  | invoke op method => some (.invoke op method)
  | invokeDynamic site => some (.dynamic site)
  | _ => none

theorem isStraight_of_instruction? {s : Step} {i : Instruction} (h : s.instruction? = some i) :
    i.isStraight = true := by
  cases s <;> cases h <;> try rfl
  case int value => exact Operation.isStraight_instruction (.int value)

theorem step_performs {d : Draft} (hr : d.reachable = true) {s : Step} {i : Instruction}
    (hs : s.instruction? = some i) (hf : (d.step s).fault = none) : d.Performs i (d.step s) := by
  cases s <;> cases hs
  case plain op => exact plain_performs hr hf
  case int value => exact pushInt_performs hr value
  case string text => exact pushString_performs hr text
  case load slot => exact load_performs hr hf
  case store slot => exact store_performs hr hf
  case create className => exact create_performs hr className
  case getStatic field => exact getStatic_performs hr hf
  case invoke op method => exact invoke_performs hr hf
  case invokeDynamic site => exact invokeDynamic_performs hr hf

structure Writes (P : Flow → Instruction → Prop) (d d' : Draft) (added : List Instruction) :
    Prop where
  emitted : d'.code.toList = d.code.toList ++ added
  straight : ∀ i ∈ added, i.isStraight = true
  verifies (frame? : Label → Option (List VerificationType)) (locals : List VerificationType) :
    Verifies P frame? d.thisClass locals d.code.size d.pending added d'.pending
  labels : d'.labels = d.labels
  handlers : d'.handlers = d.handlers
  entryLocals : d'.entryLocals = d.entryLocals
  thisClass : d'.thisClass = d.thisClass

variable {P : Flow → Instruction → Prop}

theorem Performs.writes {d d' : Draft} {i : Instruction} (h : d.Performs i d')
    (hr : d.reachable = true) (hi : i.isStraight = true) (hP : P d.flow i) : Writes P d d' [i] :=
  ⟨by simp [h.code], by simpa using hi, fun _ _ => .single (h.passes hr hi hP _ _), h.labels,
    h.handlers, h.entryLocals, h.thisClass⟩

theorem Writes.trans {d d₁ d' : Draft} {first second : List Instruction} (h : Writes P d d₁ first)
    (k : Writes P d₁ d' second) : Writes P d d' (first ++ second) where
  emitted := by rw [k.emitted, h.emitted, List.append_assoc]
  straight i hi := (List.mem_append.1 hi).elim (h.straight i) (k.straight i)
  verifies frame? locals := by
    refine (h.verifies frame? locals).append ?_
    have hsize : d.code.size + first.length = d₁.code.size := by
      rw [← Array.length_toList, ← Array.length_toList, h.emitted, List.length_append]
    rw [hsize, ← h.thisClass]
    exact k.verifies frame? locals
  labels := k.labels.trans h.labels
  handlers := k.handlers.trans h.handlers
  entryLocals := k.entryLocals.trans h.entryLocals
  thisClass := k.thisClass.trans h.thisClass

/-- Steps of which only the last may end the flow write their instructions. -/
theorem run_writes {d : Draft} (hr : d.reachable = true) (steps : List Step) {last : Step}
    {added : List Instruction} {i : Instruction} (hf : (d.run (steps ++ [last])).fault = none)
    (hsteps : steps.mapM Step.instruction? = some added)
    (hends : ∀ i ∈ added, i.endsFlow = false) (hlast : last.instruction? = some i) :
    Writes Any d (d.run (steps ++ [last])) (added ++ [i]) := by
  induction steps generalizing d added with
  | nil =>
    cases hsteps
    exact (step_performs hr hlast hf).writes hr (isStraight_of_instruction? hlast) trivial
  | cons s steps ih =>
    obtain ⟨j, hj, hsteps⟩ := Option.bind_eq_some_iff.1 ((List.mapM_cons ..).symm.trans hsteps)
    obtain ⟨rest, hrest, hadded⟩ := Option.bind_eq_some_iff.1 hsteps
    cases hadded
    obtain ⟨hj', hends⟩ := List.forall_mem_cons.1 hends
    have hperforms := step_performs hr hj (fault_run hf)
    have hreach : (d.step s).reachable = true := by rw [hperforms.reachable, hj']; rfl
    exact (hperforms.writes hr (isStraight_of_instruction? hj) trivial).trans
      (ih hreach hf hrest hends)

/-- A body of straight code is verified, and catches nothing. -/
theorem Writes.verified {d d' : Draft} {added : List Instruction} (h : Writes P d d' added)
    (hd : d.code = #[] ∧ d.labels = #[] ∧ d.handlers = #[] ∧ d.reachable = true ∧
      d.flow = ⟨[], d.entryLocals⟩) {b : MethodBody} (hb : d'.finish = .ok b) :
    (b.Verified d.thisClass P ∧ b.handlers = []) ∧ b.instructions = added := by
  obtain ⟨hcode, hlabels, hhandlers, hr, hflow⟩ := hd
  have hfin := finishes_of_finish hb
  have hinstructions : b.instructions = added := by
    rw [hfin.instructions, h.emitted, hcode]
    rfl
  have hframes : b.frames = [] := by
    rw [hfin.frames, frames, h.labels, hlabels]
    rfl
  have hnone : b.handlers = [] := by rw [hfin.handlers, h.handlers, hhandlers]
  have hframe (label : Label) : b.frame? label = none := by simp [MethodBody.frame?, hframes]
  refine ⟨⟨⟨?_, ?_, by simp [hframes], ?_, by simp [hnone], by simp [hnone], ?_⟩, hnone⟩,
    hinstructions⟩
  · have hverifies := h.verifies b.frame? b.locals
    rw [pending_of_unreachable hfin.reachable, pending_of_reachable hr, hflow, hcode,
      ← h.entryLocals, ← hfin.locals, ← hinstructions] at hverifies
    exact hverifies
  · rw [hinstructions]
    exact labelsAhead_of_isStraight h.straight
  · intro label stack hstack
    rw [hframe] at hstack
    cases hstack
  · intro hframes'
    exact absurd hframes hframes'

end Draft
end SmalltalkJvm
