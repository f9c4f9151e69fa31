import SmalltalkJvm.Proofs.Code

/-! # Regions in a draft

What the steps at the two ends of a region do to a draft. Where it starts, a label is placed. Where
it ends, the stretch is bounded by a second label, its exception entries are added, the code goes on
behind the handlers, and each handler returns the answer that its marker carries.

The labels at both ends get no frame. Those behind the handlers and of the handlers themselves do,
and their stacks are known exactly.
-/

namespace SmalltalkJvm.Draft

variable (env : Env)

theorem run_cons (d : Draft) (s : Step) (steps : List Step) :
    d.run (s :: steps) = (d.step s).run steps := rfl

@[simp] theorem run_nil (d : Draft) : d.run [] = d := rfl

theorem run_append (d : Draft) (a b : List Step) : d.run (a ++ b) = (d.run a).run b :=
  List.foldl_append

def handlerCode (lines : Bool) (span : Span) (handler : Label × String) : List Instruction :=
  .mark handler.1 :: (if lines then [.line span.line] else []) ++
    [.invoke .invokevirtual (answerMethod env handler.2), .plain .areturn]

theorem modify_modify (labels : Array LabelRecord) (i : Nat) (f g : LabelRecord → LabelRecord) :
    (labels.modify i f).modify i g = labels.modify i (g ∘ f) := by
  apply Array.ext_getElem?
  intro j
  simp only [Array.getElem?_modify]
  by_cases h : i = j <;> simp [h, Function.comp_def]

theorem modify_append (labels : Array LabelRecord) (r : LabelRecord) (rest : List LabelRecord)
    (f : LabelRecord → LabelRecord) :
    (labels ++ (r :: rest).toArray).modify labels.size f = labels ++ (f r :: rest).toArray := by
  apply Array.ext_getElem?
  intro i
  simp only [Array.getElem?_modify, Array.getElem?_append]
  split_ifs with h₁ h₂ h₃
  · omega
  · simp [h₁]
  · rfl
  · cases h : i - labels.size with
    | zero => omega
    | succ n => simp

/-- The stack, top first, with which control goes on to the next instruction, if it does. -/
def arriving (d : Draft) : Option (List VerificationType) :=
  if d.reachable then some d.stack.entries else none

theorem arriving_of_reachable {d : Draft} (hr : d.reachable = true) :
    d.arriving = some d.stack.entries := by
  simp [arriving, hr]

theorem arriving_of_unreachable {d : Draft} (hr : d.reachable = false) : d.arriving = none := by
  simp [arriving, hr]

/-- A branch to a new label; out of reach there is none. -/
theorem goto_fresh {d : Draft} {n : Nat} (h : d.labels[n]? = some {}) :
    d.goto ⟨n⟩ =
      { d with
        code := d.code ++ (if d.reachable then [.jump .goto ⟨n⟩] else []).toArray
        labels := d.labels.modify n fun _ =>
          ⟨d.arriving, false, d.reachable⟩
        reachable := false } := by
  have hlabels {f g : LabelRecord → LabelRecord} (hfg : f {} = g {}) :
      d.labels.modify n f = d.labels.modify n g := by
    apply Array.ext_getElem?
    intro i
    simp only [Array.getElem?_modify]
    split_ifs with hi
    · rw [← hi, h, Option.map_some, Option.map_some, hfg]
    · rfl
  cases hr : d.reachable
  · have hsame : d.labels.modify n (fun _ => {}) = d.labels := by
      apply Array.ext_getElem?
      intro i
      rw [Array.getElem?_modify]
      split_ifs with hi
      · rw [← hi, h, Option.map_some]
      · rfl
    rw [arriving_of_unreachable hr, hsame]
    cases d
    simp_all [goto]
  · simp only [goto, hr, ↓reduceIte, modifyLabel, append]
    rw [hlabels (g := fun _ => ⟨d.arriving, false, true⟩) (by simp [arriving_of_reachable hr])]
    simp

theorem mark_of_reachable {d : Draft} (hr : d.reachable = true) (label : Label) :
    d.mark label =
      { d with
        code := d.code.push (.mark label)
        labels := d.labels.modify label.index
          fun r => { r with stack := some d.stack.entries, placed := true } } := by
  simp [mark, meet, hr, modifyLabel, append, modify_modify, Function.comp_def]

/-- Control arrives by a branch, or not at all. -/
theorem mark_of_unreachable {d : Draft} (hr : d.reachable = false) (label : Label) :
    d.mark label =
      { d with
        code := d.code.push (.mark label)
        stack := (d.stackAt? label).elim d.stack .ofList
        peak :=
          (d.stackAt? label).elim d.peak fun stack => max d.peak (OperandStack.ofList stack).slots
        labels := d.labels.modify label.index fun r => { r with placed := true }
        reachable := (d.stackAt? label).isSome
        line := (d.stackAt? label).elim d.line fun _ => none } := by
  cases h : d.stackAt? label <;> simp [mark, meet, hr, h, modifyLabel, append, setStack]

theorem markHandler_eq (d : Draft) {label : Label} (exception : String)
    (h : label.index < d.labels.size) :
    d.markHandler label exception =
      { d with
        code := d.code.push (.mark label)
        stack := .ofList [.object exception]
        peak := max d.peak (OperandStack.ofList [.object exception]).slots
        labels := d.labels.modify label.index fun _ => ⟨some [.object exception], true, true⟩
        reachable := true
        line := none } := by
  unfold markHandler
  rw [mark_of_unreachable rfl]
  simp only [stackAt?, modifyLabel, Array.getElem?_modify, ↓reduceIte, Array.getElem?_eq_getElem h,
    Option.map_some, Option.bind_some, Option.elim_some, Option.isSome_some, modify_modify,
    Function.comp_def]

/-- The answer of a marker is asked for without arguments, and is a value. -/
def AnswersOne (marker : String) : Prop :=
  ∃ type, MethodDescriptor.parse (answerMethod env marker).descriptor = .ok ⟨[], some type⟩

/-- A draft that went on by handlers which nothing above falls into. -/
structure Handles (span : Span) (handlers : List (Label × String)) (d d' : Draft) : Prop where
  code : d'.code.toList = d.code.toList ++ handlers.flatMap (handlerCode env d.recordsLines span)
  reachable : d'.reachable = false
  size : d'.labels.size = d.labels.size
  others (i : Nat) (h : ∀ x ∈ handlers, x.1.index ≠ i) : d'.labels[i]? = d.labels[i]?
  records : ∀ x ∈ handlers, d'.labels[x.1.index]? = some ⟨some [.object x.2], true, true⟩
  answers : ∀ x ∈ handlers, AnswersOne env x.2
  entries : d'.handlers = d.handlers
  locals : d'.locals = d.locals
  entryLocals : d'.entryLocals = d.entryLocals
  thisClass : d'.thisClass = d.thisClass
  recordsLines : d'.recordsLines = d.recordsLines

theorem openLine_eq {d : Draft} (hr : d.reachable = true) (hl : d.line = none) (number : Nat) :
    d.openLine number =
      if d.recordsLines then { d.append (.line number) with line := some number } else d := by
  cases h : d.recordsLines <;> simp [openLine, h, hr, hl]

theorem answersOne_of_effect {marker : String} {this : Option String} {place : Nat}
    {f f' f'' : Flow} (hs : f.stack = [.object marker])
    (hcall : (Instruction.invoke .invokevirtual (answerMethod env marker)).effect? this place f =
      some f')
    (hreturn : (Instruction.plain .areturn).effect? this place f' = some f'') :
    AnswersOne env marker := by
  obtain ⟨descriptor, f₁, f₂, hd, hdrop, hreceive, rfl⟩ := Instruction.effect?_invoke _ hcall
  have hdropped := Flow.length_drop? hdrop
  have hreceived := Flow.length_receive? hreceive
  have hreturned := Flow.length_drop? hreturn
  rw [Flow.length_pushResult] at hreturned
  rw [hs, List.length_singleton] at hdropped
  simp only [reduceCtorEq, ↓reduceIte] at hreceived
  obtain ⟨parameters, result⟩ := descriptor
  obtain rfl : parameters = [] := List.eq_nil_of_length_eq_zero (by simp only at hdropped; omega)
  cases result with
  | none =>
    simp only [Option.isSome_none, Bool.false_eq_true, ↓reduceIte] at hreturned
    omega
  | some type => exact ⟨type, hd⟩

theorem run_handler {span : Span} {h : Label × String} {d : Draft} (hin : h.1.index < d.labels.size)
    (hf : (d.run (handlerSteps env span h)).fault = none) :
    Handles env span [h] d (d.run (handlerSteps env span h)) := by
  obtain ⟨marked, hmarked⟩ : ∃ x, x = d.markHandler h.1 h.2 := ⟨_, rfl⟩
  obtain ⟨lined, hlined⟩ : ∃ x, x = marked.openLine span.line := ⟨_, rfl⟩
  obtain ⟨called, hcalled⟩ : ∃ x, x = lined.invoke .invokevirtual (answerMethod env h.2) := ⟨_, rfl⟩
  have hrun : d.run (handlerSteps env span h) = called.plain .areturn := by
    simp only [handlerSteps, run_cons, run_nil, step, hcalled, hlined, hmarked]
  rw [hrun] at hf ⊢
  rw [markHandler_eq d h.2 hin] at hmarked
  rw [openLine_eq (by simp [hmarked]) (by simp [hmarked])] at hlined
  have hreach : lined.reachable = true := by
    rw [hlined]; split_ifs <;> simp [hmarked, append]
  have hc : lined.Performs (.invoke .invokevirtual (answerMethod env h.2)) called := by
    have hfine := fault_plain hf
    rw [hcalled] at hfine ⊢
    exact invoke_performs hreach hfine
  have hcr : called.reachable = true := by simpa [Instruction.endsFlow] using hc.reachable
  have ha := plain_performs hcr hf
  have hlabels : (called.plain .areturn).labels =
      d.labels.modify h.1.index fun _ => ⟨some [.object h.2], true, true⟩ := by
    rw [ha.labels, hc.labels, hlined]
    split_ifs <;> simp [hmarked, append]
  have hstack : lined.flow.stack = [.object h.2] := by
    rw [hlined]
    split_ifs <;> simp [flow, hmarked, append, OperandStack.ofList]
  refine ⟨?_, ha.reachable, ?_, ?_, ?_, ?_, ?_, ?_, ?_, ?_, ?_⟩
  · rw [ha.code, hc.code, hlined]
    cases hd : d.recordsLines <;> simp [handlerCode, hd, append, hmarked]
  · rw [hlabels, Array.size_modify]
  · intro i hi
    have hne : h.1.index ≠ i := hi h (by simp)
    rw [hlabels, Array.getElem?_modify, if_neg hne]
  · intro x hx
    obtain rfl : x = h := by simpa using hx
    rw [hlabels, Array.getElem?_modify, if_pos rfl, Array.getElem?_eq_getElem hin, Option.map_some]
  · intro x hx
    obtain rfl : x = h := by simpa using hx
    exact answersOne_of_effect env hstack hc.effect ha.effect
  · rw [ha.handlers, hc.handlers, hlined]
    split_ifs <;> simp [hmarked, append]
  · rw [ha.locals rfl, hc.locals rfl, hlined]
    split_ifs <;> simp [hmarked, append]
  · rw [ha.entryLocals, hc.entryLocals, hlined]
    split_ifs <;> simp [hmarked, append]
  · rw [ha.thisClass, hc.thisClass, hlined]
    split_ifs <;> simp [hmarked, append]
  · rw [ha.recordsLines, hc.recordsLines, hlined]
    split_ifs <;> simp [hmarked, append]

/-- Handlers one after the other, each with a label of its own. -/
theorem run_handlers {span : Span} {handlers : List (Label × String)} {d : Draft}
    (hr : d.reachable = false) (hdistinct : (handlers.map fun h => h.1.index).Nodup)
    (hin : ∀ h ∈ handlers, h.1.index < d.labels.size)
    (hf : (d.run (handlers.flatMap (handlerSteps env span))).fault = none) :
    Handles env span handlers d (d.run (handlers.flatMap (handlerSteps env span))) := by
  induction handlers generalizing d with
  | nil => exact ⟨by simp, hr, rfl, fun _ _ => rfl, by simp, by simp, rfl, rfl, rfl, rfl, rfl⟩
  | cons h rest ih =>
    rw [List.flatMap_cons, run_append] at hf ⊢
    have first := run_handler env (hin h (by simp)) (fault_run hf)
    obtain ⟨d₁, hd₁⟩ : ∃ x, x = d.run (handlerSteps env span h) := ⟨_, rfl⟩
    rw [← hd₁] at first hf ⊢
    have hnodup := List.nodup_cons.1 hdistinct
    have last := ih first.reachable hnodup.2
      (fun x hx => by rw [first.size]; exact hin x (List.mem_cons_of_mem _ hx)) hf
    refine ⟨?_, last.reachable, last.size.trans first.size, ?_, ?_, ?_,
      last.entries.trans first.entries,
      last.locals.trans first.locals, last.entryLocals.trans first.entryLocals,
      last.thisClass.trans first.thisClass, last.recordsLines.trans first.recordsLines⟩
    · rw [last.code, first.code, first.recordsLines]
      simp
    · intro i hi
      rw [last.others i fun x hx => hi x (List.mem_cons_of_mem _ hx),
        first.others i fun x hx => hi x (by simpa using Or.inl hx)]
    · intro x hx
      rcases List.mem_cons.1 hx with rfl | hx
      · rw [last.others x.1.index fun y hy heq => hnodup.1 (List.mem_map.2 ⟨y, hy, heq⟩)]
        exact first.records x (by simp)
      · exact last.records x hx
    · intro x hx
      rcases List.mem_cons.1 hx with rfl | hx
      · exact first.answers x (by simp)
      · exact last.answers x hx

/-- A region starts with a label that nothing branches to. -/
theorem openRegion_eq (d : Draft) :
    d.openRegion =
      { d with
        code := d.code.push (.mark d.nextLabel)
        labels := d.labels.push
          ⟨d.arriving, true, false⟩ } := by
  have hpush (r : LabelRecord) : d.labels.push r = d.labels ++ [r].toArray := by simp
  obtain ⟨added, hadded⟩ : ∃ x, x = d.addLabel := ⟨_, rfl⟩
  have hopen : d.openRegion = added.mark d.nextLabel := by rw [hadded]; rfl
  simp only [hpush]
  simp only [addLabel, hpush] at hadded
  cases hr : d.reachable
  · have hs : added.stackAt? d.nextLabel = none := by simp [hadded, stackAt?, nextLabel]
    rw [hopen, mark_of_unreachable (by simp [hadded, hr]), hs]
    simp only [hadded, nextLabel, modify_append, arriving_of_unreachable hr, Option.elim_none,
      Option.isSome_none]
  · rw [hopen, mark_of_reachable (by simp [hadded, hr])]
    simp only [hadded, hr, nextLabel, modify_append, arriving_of_reachable hr]

theorem labels_handlerLabels (first : Nat) (markers : List String) :
    (handlerLabels first markers).map (fun h => h.1.index) = List.range' first markers.length := by
  induction markers generalizing first with
  | nil => rfl
  | cons marker markers ih => simp [handlerLabels, ih, List.range'_succ]

theorem length_handlerLabels (first : Nat) (markers : List String) :
    (handlerLabels first markers).length = markers.length := by
  simpa using congrArg List.length (labels_handlerLabels first markers)

theorem nodup_handlerLabels (first : Nat) (markers : List String) :
    ((handlerLabels first markers).map fun h => h.1.index).Nodup := by
  rw [labels_handlerLabels]
  exact List.nodup_range'

theorem mem_handlerLabels {first : Nat} {markers : List String} {h : Label × String}
    (hh : h ∈ handlerLabels first markers) :
    first ≤ h.1.index ∧ h.1.index < first + markers.length := by
  have hmem : h.1.index ∈ (handlerLabels first markers).map (fun h => h.1.index) :=
    List.mem_map_of_mem hh
  rw [labels_handlerLabels, List.mem_range'_1] at hmem
  exact hmem

theorem exists_handlerLabel {first i : Nat} {markers : List String} (h : first ≤ i)
    (hlt : i < first + markers.length) : ∃ x ∈ handlerLabels first markers, x.1.index = i := by
  apply List.mem_map.1
  rw [labels_handlerLabels, List.mem_range'_1]
  exact ⟨h, hlt⟩

theorem run_labels (d : Draft) (n : Nat) :
    d.run (List.replicate n .label) =
      { d with labels := d.labels ++ (List.replicate n ({} : LabelRecord)).toArray } := by
  induction n generalizing d with
  | zero => simp
  | succ n ih =>
    rw [List.replicate_succ, run_cons, ih]
    simp only [step, addLabel, mk.injEq, true_and, and_true]
    apply Array.toList_inj.1
    simp [List.replicate_succ]

theorem run_protects (d : Draft) (entries : List ExceptionEntry) :
    d.run (entries.map .protect) = { d with handlers := d.handlers ++ entries.toArray } := by
  induction entries generalizing d with
  | nil => simp
  | cons entry entries ih =>
    rw [List.map_cons, run_cons, ih]
    simp [step, protect]

def regionEntries (start stop : Label) (handlers : List (Label × String)) : List ExceptionEntry :=
  handlers.map fun h => ⟨start, stop, h.1, some h.2⟩

structure Closes (start : Label) (span : Span) (markers : List String) (d d' : Draft) : Prop where
  code : d'.code.toList = d.code.toList ++ .mark ⟨d.labels.size⟩ ::
    ((if d.reachable then [.jump .goto ⟨d.labels.size + 1⟩] else []) ++
      (handlerLabels (d.labels.size + 2) markers).flatMap (handlerCode env d.recordsLines span) ++
      [.mark ⟨d.labels.size + 1⟩])
  size : d'.labels.size = d.labels.size + 2 + markers.length
  others (i : Nat) (h : i < d.labels.size) : d'.labels[i]? = d.labels[i]?
  stop : d'.labels[d.labels.size]? =
    some ⟨d.arriving, true, false⟩
  after : d'.labels[d.labels.size + 1]? =
    some ⟨d.arriving, true, d.reachable⟩
  records : ∀ h ∈ handlerLabels (d.labels.size + 2) markers,
    d'.labels[h.1.index]? = some ⟨some [.object h.2], true, true⟩
  answers : ∀ h ∈ handlerLabels (d.labels.size + 2) markers, AnswersOne env h.2
  entries : d'.handlers.toList = d.handlers.toList ++
    regionEntries start ⟨d.labels.size⟩ (handlerLabels (d.labels.size + 2) markers)
  reachable : d'.reachable = d.reachable
  flow : d.reachable = true → d'.flow = d.flow
  locals : d'.locals = d.locals
  entryLocals : d'.entryLocals = d.entryLocals
  thisClass : d'.thisClass = d.thisClass
  recordsLines : d'.recordsLines = d.recordsLines

/-- The end of the protected range, with the entries of its handlers. -/
theorem run_rangeEnd (d : Draft) (start : Label) (handlers : List (Label × String)) :
    d.run ([.label, .label, .mark ⟨d.labels.size⟩] ++ handlers.map (fun _ => .label) ++
        handlers.map (fun h => .protect ⟨start, ⟨d.labels.size⟩, h.1, some h.2⟩)) =
      { d with
        code := d.code.push (.mark ⟨d.labels.size⟩)
        labels := d.labels ++
          (⟨d.arriving, true, false⟩ :: {} ::
            List.replicate handlers.length ({} : LabelRecord)).toArray
        handlers := d.handlers ++ (regionEntries start ⟨d.labels.size⟩ handlers).toArray } := by
  have hmark : d.run [.label, .label, .mark ⟨d.labels.size⟩] =
      { d with
        code := d.code.push (.mark ⟨d.labels.size⟩)
        labels := d.labels ++
          [⟨d.arriving, true, false⟩, {}].toArray } := by
    obtain ⟨added, hadded⟩ : ∃ x : Draft, x = { d with labels := d.labels ++ [{}, {}].toArray } :=
      ⟨_, rfl⟩
    have hrun : d.run [.label, .label, .mark ⟨d.labels.size⟩] = added.mark ⟨d.labels.size⟩ := by
      have hpush (r s : LabelRecord) : d.labels ++ [r, s].toArray = (d.labels.push r).push s :=
        Array.toList_inj.1 (by simp)
      rw [hadded, hpush]
      rfl
    cases hr : d.reachable
    · have hs : added.stackAt? ⟨d.labels.size⟩ = none := by simp [hadded, stackAt?]
      rw [hrun, mark_of_unreachable (by simp [hadded, hr]), hs]
      simp only [hadded, modify_append, arriving_of_unreachable hr, Option.elim_none,
        Option.isSome_none]
    · rw [hrun, mark_of_reachable (by simp [hadded, hr])]
      simp only [hadded, modify_append, hr, arriving_of_reachable hr]
  have hmap : handlers.map (fun h => Step.protect ⟨start, ⟨d.labels.size⟩, h.1, some h.2⟩) =
      (regionEntries start ⟨d.labels.size⟩ handlers).map .protect := by
    simp [regionEntries]
  rw [hmap, run_append, run_append, hmark, List.map_const', run_labels, run_protects]
  simp only [mk.injEq, true_and, and_true]
  apply Array.toList_inj.1
  simp

/-- The draft where the range of a region has ended and control has gone on behind the handlers. -/
def leaveRange (d : Draft) (start : Label) (handlers : List (Label × String)) : Draft :=
  { d with
    code := d.code.push (.mark ⟨d.labels.size⟩) ++
      (if d.reachable then [.jump .goto ⟨d.labels.size + 1⟩] else []).toArray
    labels := d.labels ++
      (⟨d.arriving, true, false⟩ :: ⟨d.arriving, false, d.reachable⟩ ::
        List.replicate handlers.length ({} : LabelRecord)).toArray
    handlers := d.handlers ++ (regionEntries start ⟨d.labels.size⟩ handlers).toArray
    reachable := false }

theorem size_leaveRange (d : Draft) (start : Label) (handlers : List (Label × String)) :
    (d.leaveRange start handlers).labels.size = d.labels.size + 2 + handlers.length := by
  simp +arith [leaveRange]

theorem goto_rangeEnd (d : Draft) (start : Label) (handlers : List (Label × String)) :
    (d.run ([.label, .label, .mark ⟨d.labels.size⟩] ++ handlers.map (fun _ => .label) ++
        handlers.map (fun h => .protect ⟨start, ⟨d.labels.size⟩, h.1, some h.2⟩))).goto
      ⟨d.labels.size + 1⟩ = d.leaveRange start handlers := by
  have hpush (a b : LabelRecord) (rest : List LabelRecord) :
      d.labels ++ (a :: b :: rest).toArray = d.labels.push a ++ (b :: rest).toArray :=
    Array.toList_inj.1 (by simp)
  have hmodify (a b : LabelRecord) (rest : List LabelRecord) (f : LabelRecord → LabelRecord) :
      (d.labels ++ (a :: b :: rest).toArray).modify (d.labels.size + 1) f =
        d.labels ++ (a :: f b :: rest).toArray := by
    have hsize : (d.labels.push a).size = d.labels.size + 1 := Array.size_push a
    rw [hpush, hpush, ← hsize, modify_append]
  rw [run_rangeEnd, goto_fresh (by simp), hmodify]
  rfl

/-- A region ends with the label behind its handlers. -/
theorem Handles.closes {start : Label} {span : Span} {markers : List String} {d handled : Draft}
    (h : Handles env span (handlerLabels (d.labels.size + 2) markers)
      (d.leaveRange start (handlerLabels (d.labels.size + 2) markers)) handled) :
    Closes env start span markers d (handled.mark ⟨d.labels.size + 1⟩) := by
  have hbelow : ∀ i < d.labels.size + 2, ∀ x ∈ handlerLabels (d.labels.size + 2) markers,
      x.1.index ≠ i := by
    intro i hi x hx heq
    have := (mem_handlerLabels hx).1
    omega
  have hafter : handled.labels[d.labels.size + 1]? = some ⟨d.arriving, false, d.reachable⟩ := by
    rw [h.others _ (hbelow _ (by omega))]
    simp [leaveRange]
  have hstack : handled.stackAt? ⟨d.labels.size + 1⟩ = d.arriving := by simp [stackAt?, hafter]
  have hlabels (i : Nat) (hi : d.labels.size + 1 ≠ i) :
      (handled.mark ⟨d.labels.size + 1⟩).labels[i]? = handled.labels[i]? := by
    simp [mark_of_unreachable h.reachable, Array.getElem?_modify, hi]
  constructor
  case code => simp [mark_of_unreachable h.reachable, h.code, leaveRange]
  case size =>
    rw [← length_handlerLabels (d.labels.size + 2), ← size_leaveRange d start, ← h.size]
    simp [mark_of_unreachable h.reachable]
  case others =>
    intro i hi
    rw [hlabels i (by omega), h.others i (hbelow i (by omega))]
    simp [leaveRange, Array.getElem?_append_left hi]
  case stop =>
    rw [hlabels _ (by omega), h.others _ (hbelow _ (by omega))]
    simp [leaveRange]
  case after => simp [mark_of_unreachable h.reachable, Array.getElem?_modify, hafter]
  case records =>
    intro x hx
    rw [hlabels _ fun heq => hbelow _ (by omega) x hx heq.symm]
    exact h.records x hx
  case answers => exact h.answers
  case entries => simp [mark_of_unreachable h.reachable, h.entries, leaveRange]
  case reachable =>
    cases hr : d.reachable <;> simp [mark_of_unreachable h.reachable, hstack, arriving, hr]
  case flow =>
    intro hr
    simp [mark_of_unreachable h.reachable, hstack, arriving, hr, flow, h.locals, leaveRange]
  all_goals
    simp [mark_of_unreachable h.reachable, h.locals, h.entryLocals, h.thisClass, h.recordsLines,
      leaveRange]

theorem closeRegion_of_ne_nil (d : Draft) (start : Label) (span : Span) {markers : List String}
    (hm : markers ≠ []) :
    d.closeRegion env start span markers =
      ((d.leaveRange start (handlerLabels (d.labels.size + 2) markers)).run
        ((handlerLabels (d.labels.size + 2) markers).flatMap (handlerSteps env span))).mark
        ⟨d.labels.size + 1⟩ := by
  rw [← goto_rangeEnd]
  simp only [closeRegion, hm, ↓reduceIte, closeSteps, run_append]
  rfl

theorem closeRegion_closes {d : Draft} (start : Label) (span : Span) {markers : List String}
    (hm : markers ≠ []) (hf : (d.closeRegion env start span markers).fault = none) :
    Closes env start span markers d (d.closeRegion env start span markers) := by
  rw [closeRegion_of_ne_nil env d start span hm] at hf ⊢
  refine Handles.closes env (run_handlers env rfl (nodup_handlerLabels _ _) ?_ (fault_meet hf))
  intro x hx
  rw [size_leaveRange, length_handlerLabels]
  exact (mem_handlerLabels hx).2

end SmalltalkJvm.Draft
