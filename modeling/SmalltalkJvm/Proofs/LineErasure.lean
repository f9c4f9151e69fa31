import SmalltalkJvm.Proofs.Units

/-! # Code without source lines

Whether source lines are recorded makes no other difference to what is generated. The lines can be
left out of a draft, of the compiler's state and of a finished method, and every action of the
compiler does the same to the rest: run on a state without lines, under settings that ask for none,
it gives the same result, up to lines, or the same error. So does the compilation of a whole script.
-/

namespace SmalltalkJvm

def Instruction.isLine : Instruction → Bool
  | line _ => true
  | _ => false

def MethodBody.withoutLines (b : MethodBody) : MethodBody :=
  { b with instructions := b.instructions.filter (!·.isLine) }

namespace Draft

def withoutLines (d : Draft) : Draft :=
  { d with code := d.code.filter (!·.isLine), line := none, recordsLines := false }

section

variable (d : Draft)

theorem withoutLines_append {i : Instruction} (h : i.isLine = false) :
    (d.append i).withoutLines = d.withoutLines.append i := by
  simp [append, withoutLines, h]

theorem withoutLines_pop (op : Opcode) :
    d.withoutLines.pop op = ((d.pop op).1, (d.pop op).2.withoutLines) := by
  have hstack : d.withoutLines.stack = d.stack := rfl
  unfold pop
  rw [hstack]
  cases d.stack.pop? <;> rfl

theorem withoutLines_popMany (op : Opcode) (n : Nat) :
    (d.popMany op n).withoutLines = d.withoutLines.popMany op n := by
  induction n generalizing d with
  | zero => rfl
  | succ n ih => rw [popMany, popMany, ih, withoutLines_pop]

theorem withoutLines_operate (op : Opcode) :
    (d.operate op).withoutLines = d.withoutLines.operate op := by
  cases op
  case pop | areturn | athrow => simp only [operate, withoutLines_pop]
  case dup =>
    simp only [operate, withoutLines_pop]
    rcases d.pop .dup with ⟨_ | t, d'⟩ <;> rfl
  case pop2 =>
    simp only [operate, withoutLines_pop]
    rcases d.pop .pop2 with ⟨_ | t, d'⟩
    · rfl
    · simp only [withoutLines_pop]
      split_ifs <;> rfl
  case dupX1 | swap =>
    simp only [operate, withoutLines_pop]
    rcases d.pop _ with ⟨_ | t, d'⟩
    · rfl
    · rcases d'.pop _ with ⟨_ | u, d''⟩ <;> rfl
  all_goals rfl

/-- Most steps do nothing where control does not come. -/
theorem withoutLines_reached {next next' : Draft} (h : next.withoutLines = next') :
    (if d.reachable then next else d).withoutLines =
      if d.withoutLines.reachable then next' else d.withoutLines := by
  change _ = if d.reachable then next' else d.withoutLines
  rw [← h]
  split_ifs <;> rfl

theorem withoutLines_plain (op : Opcode) :
    (d.plain op).withoutLines = d.withoutLines.plain op := by
  have hoperate : ((d.operate op).append (.plain op)).withoutLines =
      (d.withoutLines.operate op).append (.plain op) := by
    rw [withoutLines_append _ rfl, withoutLines_operate]
  refine withoutLines_reached d ?_
  split_ifs
  · rw [← hoperate]
    rfl
  · rfl

theorem isLine_intInstruction (value : Int32) : (intInstruction value).isLine = false := by
  unfold intInstruction
  split
  · rfl
  · split_ifs <;> rfl

theorem withoutLines_popReceiver (op : Opcode) (method : MemberRef) :
    (d.popReceiver op method).withoutLines = d.withoutLines.popReceiver op method := by
  simp only [popReceiver, withoutLines_pop]
  split_ifs
  · rfl
  · rcases (d.pop op).1 with _ | t
    · rfl
    · cases t <;> rfl
  · rfl

theorem withoutLines_pushResult (t : Option FieldType) :
    (d.pushResult t).withoutLines = d.withoutLines.pushResult t := by
  cases t <;> rfl

theorem withoutLines_invoke (op : Opcode) (method : MemberRef) :
    (d.invoke op method).withoutLines = d.withoutLines.invoke op method := by
  refine withoutLines_reached d ?_
  cases MethodDescriptor.parse method.descriptor with
  | error e => rfl
  | ok descriptor =>
    dsimp only
    rw [withoutLines_append _ rfl, withoutLines_pushResult, withoutLines_popReceiver,
      withoutLines_popMany]

theorem withoutLines_invokeDynamic (site : CallSite) :
    (d.invokeDynamic site).withoutLines = d.withoutLines.invokeDynamic site := by
  refine withoutLines_reached d ?_
  cases MethodDescriptor.parse site.descriptor with
  | error e => rfl
  | ok descriptor =>
    dsimp only
    rw [withoutLines_append _ rfl, withoutLines_pushResult, withoutLines_popMany]

theorem withoutLines_mark (label : Label) :
    (d.mark label).withoutLines = d.withoutLines.mark label := by
  have hreachable : d.withoutLines.reachable = d.reachable := rfl
  have hstack : d.withoutLines.stackAt? label = d.stackAt? label := rfl
  have hmeet : (d.meet label).withoutLines = d.withoutLines.meet label := by
    unfold meet
    rw [hreachable, hstack]
    split_ifs
    · rfl
    · cases d.stackAt? label <;> rfl
  rw [mark, mark, withoutLines_append _ rfl, ← hmeet]
  rfl

/-- Creating an object is the one step that depends on how many instructions come before. -/
theorem withoutLines_step {s : Step} (hs : ∀ className, s ≠ .create className) :
    (d.step s).withoutLines = d.withoutLines.step s := by
  cases s with
  | line number =>
    change (d.openLine number).withoutLines = d.withoutLines
    unfold openLine
    split_ifs
    · simp [append, withoutLines, Instruction.isLine]
    · rfl
  | plain op => exact withoutLines_plain d op
  | discard =>
    have hstack : d.withoutLines.stack = d.stack := rfl
    simp only [step, discard, hstack]
    cases d.stack.top? <;> exact withoutLines_plain d _
  | int value =>
    have happend := withoutLines_append d (isLine_intInstruction value)
    exact withoutLines_reached d (congrArg (push · .int) happend)
  | string text =>
    exact withoutLines_reached d (congrArg (push · _) (withoutLines_append d rfl))
  | load slot =>
    have hlocals : d.withoutLines.locals = d.locals := rfl
    refine withoutLines_reached d ?_
    rw [hlocals]
    cases d.locals[slot.toNat]? with
    | none => rfl
    | some t => exact congrArg (push · t) (withoutLines_append d rfl)
  | store slot =>
    refine withoutLines_reached d ?_
    rw [withoutLines_pop]
    rcases d.pop .astore with ⟨_ | t, d'⟩
    · rfl
    · exact withoutLines_append (d'.setLocal slot.toNat t) rfl
  | create className => exact absurd rfl (hs className)
  | getStatic field =>
    refine withoutLines_reached d ?_
    cases FieldType.parse field.descriptor with
    | error e => exact withoutLines_append (d.fail _) rfl
    | ok t => exact congrArg (push · _) (withoutLines_append d rfl)
  | invoke op method => exact withoutLines_invoke d op method
  | invokeDynamic site => exact withoutLines_invokeDynamic d site
  | label => rfl
  | mark label => exact withoutLines_mark d label
  | markHandler label exception => exact withoutLines_mark _ label
  | goto target =>
    refine withoutLines_reached d ?_
    have happend := withoutLines_append (i := .jump .goto target) (d.modifyLabel target fun r =>
      { r with stack := r.stack <|> some d.stack.entries, targeted := true }) rfl
    exact congrArg (fun d : Draft => { d with reachable := false }) happend
  | protect entry => rfl

theorem withoutLines_run {steps : List Step}
    (hs : ∀ s ∈ steps, ∀ className, s ≠ .create className) :
    (d.run steps).withoutLines = d.withoutLines.run steps := by
  induction steps generalizing d with
  | nil => rfl
  | cons s steps ih =>
    obtain ⟨hfirst, hrest⟩ := List.forall_mem_cons.1 hs
    rw [run_cons, run_cons, ih _ hrest, withoutLines_step d hfirst]

theorem withoutLines_runOperations (operations : List Operation) :
    (d.runOperations operations).withoutLines = d.withoutLines.runOperations operations := by
  refine withoutLines_run d fun s hs className => ?_
  obtain ⟨op, -, rfl⟩ := List.mem_map.1 hs
  cases op <;> exact Step.noConfusion

theorem withoutLines_closeRegion (env : Env) (start : Label) (span : Span) (markers : List String) :
    (d.closeRegion env start span markers).withoutLines =
      d.withoutLines.closeRegion env start span markers := by
  unfold closeRegion
  split_ifs
  · rfl
  · refine withoutLines_run d fun s hs className => ?_
    rintro rfl
    simp [closeSteps, handlerSteps] at hs

theorem withoutLines_settle (env : Env) (isLast : Bool) (base : Nat) :
    (d.settle env isLast base).withoutLines = d.withoutLines.settle env isLast base :=
  withoutLines_runOperations d _

theorem withoutLines_finish : d.withoutLines.finish = d.finish.map MethodBody.withoutLines := by
  have hfault : d.withoutLines.fault = d.fault := rfl
  have hreachable : d.withoutLines.reachable = d.reachable := rfl
  have hrequired : (d.withoutLines.requiredLabels.find? fun l => !d.withoutLines.isPlaced l) =
      d.requiredLabels.find? fun l => !d.isPlaced l := rfl
  unfold finish
  rw [hfault, hreachable, hrequired]
  cases d.fault with
  | some fault => rfl
  | none =>
    cases d.reachable with
    | true => rfl
    | false =>
      cases d.requiredLabels.find? fun l => !d.isPlaced l with
      | some label => rfl
      | none =>
        simp only [Bool.false_eq_true, ↓reduceIte, Except.map, MethodBody.withoutLines,
          withoutLines, Array.toList_filter]
        rfl

end

end Draft

def MethodFrame.withoutLines (f : MethodFrame) : MethodFrame :=
  { f with draft := f.draft.withoutLines }

def Method.withoutLines (m : Method) : Method := { m with body := m.body.withoutLines }

def ClassFile.withoutLines (c : ClassFile) : ClassFile :=
  { c with methods := c.methods.map Method.withoutLines }

def State.withoutLines (s : State) : State :=
  { s with
    current := s.current.withoutLines
    suspended := s.suspended.map MethodFrame.withoutLines
    blocks := s.blocks.map Method.withoutLines
    markers := s.markers.map ClassFile.withoutLines }

def Env.withoutLines (env : Env) : Env :=
  { env with settings := { env.settings with lineNumbers := false } }

namespace Compile

/-- The outcome of an action without source lines, given what becomes of its result. -/
def erased {α β : Type} (f : α → β) :
    EStateM.Result CompileError State α → EStateM.Result CompileError State β
  | .ok x s => .ok (f x) s.withoutLines
  | .error e s => .error e s.withoutLines

/-- One action does without source lines what the other does with them: it fails with the same
error, or gives the same result, up to the lines in it. -/
def Erases {α β : Type} (f : α → β) (a : Compile α) (b : Compile β) : Prop :=
  ∀ s, b s.withoutLines = erased f (a s)

abbrev SameCode {α : Type} (a b : Compile α) : Prop := Erases id a b

namespace Erases

variable {α β γ δ : Type} {f : α → β} {g : γ → δ}

protected theorem pure (x : α) : Erases f (pure x) (pure (f x)) := fun _ => rfl

protected theorem throw (e : CompileError) : Erases f (throw e) (throw e) := fun _ => rfl

protected theorem bind {a : Compile α} {b : Compile β} {k : α → Compile γ} {l : β → Compile δ}
    (h : Erases f a b) (hk : ∀ x, Erases g (k x) (l (f x))) : Erases g (a >>= k) (b >>= l) := by
  intro s
  change EStateM.bind b l s.withoutLines = erased g (EStateM.bind a k s)
  unfold EStateM.bind
  rw [h s]
  cases a s with
  | ok x s' => exact hk x s'
  | error e s' => rfl

/-- A check before an action. -/
theorem check {p : Prop} [Decidable p] {a : Compile α} {b : Compile β} (e : CompileError)
    (h : Erases f a b) :
    Erases f (do
      if p then throw e
      a) (do
      if p then throw e
      b) := by
  split_ifs
  · exact .bind (f := id) (.throw e) fun _ => h
  · exact h

end Erases

section

variable {α : Type}

/-- Changes of the draft that do not depend on lines. -/
theorem sameCode_draft {a b : Compile α} {x : α} (change : Draft → Draft)
    (ha : ∀ s, a s = .ok x (s.withDraft (change s.current.draft)))
    (hb : ∀ s, b s = .ok x (s.withDraft (change s.current.draft)))
    (h : ∀ d : Draft, (change d).withoutLines = change d.withoutLines) : SameCode a b := by
  intro s
  rw [ha, hb]
  simp only [erased, State.withDraft, State.withoutLines, MethodFrame.withoutLines, h, id]

theorem sameCode_operations {a b : Compile α} {x : α} (operations : List Operation)
    (ha : ∀ s, a s = .ok x (s.withDraft (s.current.draft.runOperations operations)))
    (hb : ∀ s, b s = .ok x (s.withDraft (s.current.draft.runOperations operations))) :
    SameCode a b :=
  sameCode_draft (Draft.runOperations · operations) ha hb fun d =>
    d.withoutLines_runOperations operations

theorem sameCode_modify {change : State → State}
    (h : ∀ s, change s.withoutLines = (change s).withoutLines) :
    SameCode (modify change) (modify change) := by
  intro s
  change EStateM.Result.ok () (change s.withoutLines) = .ok () (change s).withoutLines
  rw [h]

theorem sameCode_forM {β : Type} {a : β → Compile Unit} (h : ∀ x, SameCode (a x) (a x))
    (xs : List β) : SameCode (xs.forM a) (xs.forM a) := by
  induction xs with
  | nil => exact .pure ()
  | cons x xs ih => exact .bind (h x) fun _ => ih

theorem sameCode_declare (kind : SlotKind) (ident : Ident) :
    SameCode (declare kind ident) (declare kind ident) := by
  intro s
  have hscopes : s.withoutLines.scopes = s.scopes := rfl
  unfold declare
  rw [hscopes]
  cases s.scopes.conflict? ident.name ident.span <;> rfl

theorem sameCode_nameBlock : SameCode nameBlock nameBlock := by
  intro s
  rfl

theorem finish_withoutLines (frame : MethodFrame) (span : Span) :
    frame.withoutLines.finish span = (frame.finish span).map MethodBody.withoutLines := by
  have hregions : frame.withoutLines.regions = frame.regions := rfl
  unfold MethodFrame.finish
  rw [hregions, MethodFrame.withoutLines, Draft.withoutLines_finish]
  cases frame.regions with
  | cons region rest => rfl
  | nil => cases frame.draft.finish <;> rfl

theorem erases_leaveMethod (span : Span) :
    Erases MethodBody.withoutLines (leaveMethod span) (leaveMethod span) := by
  intro s
  have hcurrent := finish_withoutLines s.current span
  have hsuspended : s.withoutLines.suspended = s.suspended.map MethodFrame.withoutLines := rfl
  have hframe : s.withoutLines.current = s.current.withoutLines := rfl
  unfold leaveMethod
  rw [hsuspended, hframe, hcurrent]
  cases s.suspended with
  | nil => rfl
  | cons outer rest => cases s.current.finish span <;> rfl

theorem sameCode_emit {step : Draft.Step} (h : ∀ className, step ≠ .create className) :
    SameCode (emit step) (emit step) := by
  refine sameCode_modify fun s => ?_
  simp only [State.withoutLines, MethodFrame.withoutLines, Draft.withoutLines_step _ h]

theorem sameCode_openRegion (span : Span) : SameCode (openRegion span) (openRegion span) := by
  have hlabel : SameCode newLabel newLabel :=
    .bind (f := id) (fun _ => rfl) fun label =>
      .bind (sameCode_emit (by simp)) fun _ => .pure label
  exact .bind hlabel fun start => .bind (sameCode_emit (by simp)) fun _ =>
    sameCode_modify fun _ => rfl

theorem sameCode_popRegion : SameCode popRegion popRegion := by
  intro s
  have hregions : s.withoutLines.current.regions = s.current.regions := rfl
  unfold popRegion
  rw [hregions]
  cases s.current.regions <;> rfl

theorem sameCode_closeRegion (env : Env) :
    SameCode (closeRegion env) (closeRegion env.withoutLines) := by
  refine .bind sameCode_popRegion fun region => ?_
  dsimp only [id]
  split_ifs with hm
  · exact .pure ()
  · have hne : region.markers.toList ≠ [] := by simpa using hm
    exact sameCode_draft
      (fun d => d.closeRegion env region.start region.span region.markers.toList)
      (fun s => emitHandlers_ok env region s hne)
      (fun s => emitHandlers_ok env.withoutLines region s hne)
      fun d => d.withoutLines_closeRegion env _ _ _

theorem sameCode_attachMarker (marker : String) (span : Span) :
    SameCode (attachMarker marker span) (attachMarker marker span) := by
  intro s
  have hregions : s.withoutLines.current.regions = s.current.regions := rfl
  unfold attachMarker
  rw [hregions]
  cases s.current.regions <;> rfl

theorem markerClass_withoutLines {env : Env} {name : String} {span : Span} {file : ClassFile}
    (h : markerClass env name span = .ok file) : file.withoutLines = file := by
  unfold markerClass at h
  split at h
  · cases h
  · rename_i body hbody
    have hcode := (markerConstructor_verified hbody).2
    have hsame : body.withoutLines = body := by
      have hlines : body.instructions.filter (!·.isLine) = body.instructions := by
        rw [hcode]
        rfl
      rw [MethodBody.withoutLines, hlines]
    cases h
    simp [ClassFile.withoutLines, Method.withoutLines, hsame]

theorem sameCode_addMarker (env : Env) (block : String) (span : Span) :
    SameCode (addMarker env block span) (addMarker env.withoutLines block span) := by
  have hmarker : Erases ClassFile.withoutLines
      (ofExcept (markerClass env (env.markerName block) span))
      (ofExcept (markerClass env (env.markerName block) span)) := by
    cases hfile : markerClass env (env.markerName block) span with
    | error e => exact .throw e
    | ok file =>
      have hpure := Erases.pure (f := ClassFile.withoutLines) file
      rwa [markerClass_withoutLines hfile] at hpure
  refine .bind hmarker fun file => .bind (f := id) ?_ fun _ => .pure _
  intro s
  change EStateM.Result.ok () _ = .ok () _
  simp [State.withoutLines]

theorem sameCode_checkArity (selector : String) (arity : Nat) (span : Span) :
    SameCode (checkArity selector arity span) (checkArity selector arity span) := by
  unfold checkArity
  split_ifs
  · exact .throw _
  · exact .pure ()

theorem sameCode_dispatch (env : Env) (selector : String) (arity : Nat) (r : Receiver)
    (span : Span) :
    SameCode (dispatch env selector arity r span)
      (dispatch env.withoutLines selector arity r span) :=
  .bind (sameCode_checkArity selector arity span) fun _ =>
    sameCode_operations (Operation.dispatch env selector arity r span) (fun _ => rfl) fun _ => rfl

variable (env : Env)

theorem sameCode_directiveIndex (name text : String) (span : Span) :
    SameCode (directiveIndex name text span) (directiveIndex name text span) := by
  unfold directiveIndex
  cases index? text with
  | none => exact .throw _
  | some n => exact .pure n

theorem sameCode_directiveInvoke (name : String) (op : Opcode) (method : MemberRef) (span : Span) :
    SameCode (directiveInvoke name op method span) (directiveInvoke name op method span) := by
  unfold directiveInvoke
  cases MethodDescriptor.parse method.descriptor with
  | error e => exact .throw _
  | ok descriptor =>
    exact .bind (f := id) (fun _ => rfl) fun available =>
      .check _ (.check _ (sameCode_emit (by simp)))

theorem sameCode_directiveField (name : String) (field : MemberRef) (span : Span) :
    SameCode (directiveField name field span) (directiveField name field span) := by
  unfold directiveField
  cases FieldType.parse field.descriptor with
  | error e => exact .throw _
  | ok t =>
    dsimp only
    split_ifs
    · exact sameCode_emit (by simp)
    · exact .throw _

theorem sameCode_directiveLoad (name : String) (slot : UInt16) (span : Span) :
    SameCode (directiveLoad name slot span) (directiveLoad name slot span) := by
  unfold directiveLoad
  refine .bind (f := State.withoutLines) (fun _ => rfl) fun state => ?_
  change SameCode (if slot.toNat < state.current.draft.entryLocals.length then _ else _)
    (if slot.toNat < state.current.draft.entryLocals.length then _ else _)
  split_ifs
  · exact sameCode_emit (by simp)
  · exact .throw _

theorem sameCode_directive (name : String) (kind : Directive) (arguments : List String)
    (span : Span) :
    SameCode (directive env name kind arguments span)
      (directive env.withoutLines name kind arguments span) := by
  unfold directive
  split
  · exact .bind (sameCode_directiveIndex _ _ _) fun n =>
      sameCode_operations (Operation.slot env "argumentAt" n) (fun _ => rfl) fun _ => rfl
  · exact .bind (sameCode_directiveIndex _ _ _) fun n => sameCode_directiveLoad _ _ _
  · exact sameCode_directiveInvoke _ _ _ _
  · exact sameCode_directiveInvoke _ _ _ _
  · exact sameCode_directiveField _ _ _
  · exact .bind (sameCode_directiveIndex _ _ _) fun n =>
      sameCode_operations [.load 1, .load 2, .object env s!"primitive{n.toNat}"
        s!"({env.library.contextType}){env.library.objectType}"] (fun _ => rfl) fun _ => rfl
  · exact .throw _

theorem sameCode_escape (parts : List KeywordPart) (span : Span) :
    SameCode (escape env parts span) (escape env.withoutLines parts span) := by
  unfold escape
  dsimp only
  cases Directive.ofSelector? (selectorOf parts) with
  | none => exact .throw _
  | some kind =>
    refine .bind (f := id) ?_ fun arguments => .bind (sameCode_emit (by simp)) fun _ =>
      sameCode_directive env _ kind arguments span
    cases parts.mapM (directiveArgument (selectorOf parts)) with
    | error e => exact .throw e
    | ok arguments => exact .pure arguments

theorem sameCode_pushBlock (role : BlockRole) (answers : Bool) (name : String) (span : Span) :
    SameCode (pushBlock env role answers name span)
      (pushBlock env.withoutLines role answers name span) := by
  unfold pushBlock
  refine .bind (sameCode_emit (by simp)) fun _ => .bind (sameCode_emit (by simp)) fun _ =>
    .bind (sameCode_emit (by simp)) fun _ => ?_
  split
  · exact sameCode_emit (by simp)
  · exact .bind (sameCode_addMarker env name span) fun marker =>
      .bind (sameCode_emit (by simp)) fun _ => .bind (sameCode_emit (by simp)) fun _ =>
        sameCode_attachMarker marker span
  · exact sameCode_emit (by simp)

theorem sameCode_block {role : BlockRole} {parameters : List Ident} {answers : Bool} {span : Span}
    {sequence sequence' : Compile Unit} (h : SameCode sequence sequence') :
    SameCode (block env role parameters answers span sequence)
      (block env.withoutLines role parameters answers span sequence') := by
  refine .bind sameCode_nameBlock fun name => .bind (f := id) ?_ fun _ =>
    .bind (sameCode_modify fun _ => rfl) fun _ =>
    .bind (sameCode_forM (sameCode_declare .argument) parameters) fun _ => .bind h fun _ =>
    .bind (sameCode_modify fun _ => rfl) fun _ => .bind (erases_leaveMethod span) fun body =>
    .bind (f := id) ?_ fun _ => sameCode_pushBlock env role answers name span
  · intro s
    rfl
  · intro s
    change EStateM.Result.ok () _ = .ok () _
    simp [State.withoutLines]
    rfl

theorem sameCode_asValue (span : Span) {expression expression' : Compile Receiver}
    (h : SameCode expression expression') :
    SameCode (asValue env span expression) (asValue env.withoutLines span expression') := by
  refine .bind h fun r => ?_
  dsimp only [id]
  split_ifs
  · exact .throw _
  · exact .pure ()

theorem sameCode_inRegion (wanted : Bool) (span : Span) {action action' : Compile Unit}
    (h : SameCode action action') :
    SameCode (inRegion env wanted span action) (inRegion env.withoutLines wanted span action') := by
  cases wanted with
  | false => exact h
  | true =>
    exact .bind (sameCode_openRegion span) fun _ => .bind h fun _ => sameCode_closeRegion env

theorem sameCode_statementWith (isLast : Bool) (span : Span) {body body' : Compile Unit}
    (h : SameCode body body') :
    SameCode (statementWith env isLast span body)
      (statementWith env.withoutLines isLast span body') :=
  .bind (f := id) (fun _ => rfl) fun base => .bind (sameCode_openRegion span) fun _ =>
    .bind h fun _ => .bind (sameCode_closeRegion env) fun _ =>
    sameCode_draft (·.settle env isLast base) (settle_ok env isLast base)
      (settle_ok env.withoutLines isLast base) fun d => d.withoutLines_settle env isLast base

theorem sameCode_reference (name : String) (span : Span) :
    SameCode (reference env name span) (reference env.withoutLines name span) := by
  refine .bind (f := id) (fun _ => rfl) fun resolution => ?_
  change SameCode (if resolution = .unresolved ∧ name = env.settings.escapeIdentifier then _ else _)
    (if resolution = .unresolved ∧ name = env.settings.escapeIdentifier then _ else _)
  split_ifs
  · exact .pure _
  · refine .bind (sameCode_emit (by simp)) fun _ => ?_
    exact sameCode_operations (Operation.reference env name resolution)
      (by cases resolution <;> exact fun _ => rfl) (by cases resolution <;> exact fun _ => rfl)

theorem sameCode_declareTemporaries (temporaries : List Ident) :
    SameCode (declareTemporaries env temporaries)
      (declareTemporaries env.withoutLines temporaries) := by
  cases temporaries with
  | nil => exact .pure ()
  | cons first rest =>
    refine .bind (sameCode_forM (sameCode_declare .temporary) (first :: rest)) fun _ =>
      .bind (f := State.withoutLines) (fun _ => rfl) fun state =>
      .bind (sameCode_emit (by simp)) fun _ => ?_
    exact sameCode_operations (Operation.initTemporaries env
      ((state.scopes.current?.map Scope.temporaries).getD 0)) (fun _ => rfl) fun _ => rfl

theorem sameCode_checkParts (parts : List KeywordPart) (span : Span) :
    SameCode (checkParts parts span) (checkParts parts span) := by
  cases parts with
  | nil => exact .throw _
  | cons part rest =>
    unfold checkParts
    dsimp only
    split
    · exact .throw _
    · exact .pure ()

theorem sameCode_rejectEscape (r : Receiver) (selector : Ident) :
    SameCode (rejectEscape env r selector) (rejectEscape env.withoutLines r selector) := by
  unfold rejectEscape
  split_ifs
  · exact .throw _
  · exact .pure ()

theorem sameCode_notePart (first : Bool) (part : KeywordPart) :
    SameCode (notePart first part) (notePart first part) := by
  refine .bind (sameCode_modify fun _ => rfl) fun _ => ?_
  split
  · exact sameCode_modify fun _ => rfl
  · exact .pure ()

theorem sameCode_assignable (target : Ident) :
    SameCode (assignable target) (assignable target) := by
  refine .bind (f := id) (fun _ => rfl) fun resolution => ?_
  cases resolution with
  | temporary slot => exact .pure slot
  | argument slot => exact .throw _
  | unresolved => exact .throw _

theorem sameCode_pushFixed (accessor : String) :
    SameCode (pushFixed env accessor) (pushFixed env.withoutLines accessor) :=
  sameCode_operations (Operation.fixed env accessor) (fun _ => rfl) fun _ => rfl

theorem sameCode_pseudo (word : Pseudo) (span : Span) :
    SameCode (pseudo env word span) (pseudo env.withoutLines word span) := by
  refine .bind (sameCode_emit (by simp)) fun _ => ?_
  cases word with
  | self | super => exact .bind (sameCode_emit (by simp)) fun _ => .pure _
  | nil | true | false => exact .bind (sameCode_pushFixed env _) fun _ => .pure _

mutual

theorem sameCode_receiver (e : Expr) : SameCode (receiver env e) (receiver env.withoutLines e) := by
  cases e with
  | literal kind text span =>
    exact sameCode_operations (.line span.line :: Operation.literal env kind text) (fun _ => rfl)
      fun _ => rfl
  | pseudo word span => exact sameCode_pseudo env word span
  | reference name span => exact sameCode_reference env name span
  | block parameters body span =>
    exact .bind (sameCode_block env (sameCode_sequence body (sameCode_pushFixed env _))) fun _ =>
      .pure _
  | send target m span =>
    exact .bind (sameCode_inRegion env m.isKeyword span
      (.bind (sameCode_receiver target) fun r => sameCode_message r m)) fun _ => .pure _
  | cascade target messages span =>
    exact .check _ (.bind (sameCode_receiver target) fun r =>
      .bind (sameCode_cascade r messages) fun _ => .pure _)
  | assign target value span =>
    exact .bind (sameCode_assignable target) fun slot =>
      .bind (sameCode_asValue env value.span (sameCode_receiver value)) fun _ =>
      .bind (sameCode_operations (.line span.line :: Operation.assign env slot) (fun _ => rfl)
        fun _ => rfl) fun _ => .pure _
  | paren inner span =>
    exact .bind (sameCode_asValue env inner.span (sameCode_receiver inner)) fun _ => .pure _
  | primitive number span => exact .throw _

theorem sameCode_message (r : Receiver) (m : Message) :
    SameCode (message env r m) (message env.withoutLines r m) := by
  cases m with
  | unary selector =>
    exact .bind (sameCode_rejectEscape env r selector) fun _ => sameCode_dispatch env _ _ _ _
  | binary selector argument span =>
    exact .bind (sameCode_rejectEscape env r selector) fun _ =>
      .bind (sameCode_asValue env argument.span (sameCode_receiver argument)) fun _ =>
      sameCode_dispatch env _ _ _ _
  | keyword parts span =>
    refine .bind (sameCode_checkParts parts span) fun _ => ?_
    split_ifs
    · exact sameCode_escape env parts span
    · exact .bind (sameCode_checkArity _ _ _) fun _ => .bind (sameCode_modify fun _ => rfl) fun _ =>
        .bind (sameCode_arguments true parts) fun _ => .bind (sameCode_modify fun _ => rfl) fun _ =>
        sameCode_dispatch env _ _ _ _

theorem sameCode_cascade (r : Receiver) (messages : List Message) :
    SameCode (cascade env r messages) (cascade env.withoutLines r messages) := by
  cases messages with
  | nil => exact .pure ()
  | cons m rest =>
    rw [cascade, cascade]
    have hm := sameCode_message r m
    have hrest := sameCode_cascade r rest
    split_ifs
    · exact .bind hm fun _ => hrest
    · exact .bind (sameCode_emit (by simp)) fun _ =>
        .bind (sameCode_inRegion env m.isKeyword m.span hm) fun _ =>
        .bind (sameCode_emit (by simp)) fun _ => hrest
    · exact .bind (sameCode_inRegion env m.isKeyword m.span hm) fun _ => hrest

theorem sameCode_arguments (first : Bool) (parts : List KeywordPart) :
    SameCode (arguments env first parts) (arguments env.withoutLines first parts) := by
  cases parts with
  | nil => exact .pure ()
  | cons part rest =>
    obtain ⟨keyword, argument⟩ := part
    rw [arguments, arguments]
    refine .bind (sameCode_notePart first _) fun _ => ?_
    have hrest := sameCode_arguments false rest
    cases argument with
    | block parameters body span =>
      exact .bind (sameCode_block env (sameCode_sequence body (sameCode_pushFixed env _))) fun _ =>
        hrest
    | _ => exact .bind (sameCode_asValue env _ (sameCode_receiver _)) fun _ => hrest

theorem sameCode_sequence (body : Sequence) {whenEmpty whenEmpty' : Compile Unit}
    (h : SameCode whenEmpty whenEmpty') :
    SameCode (sequence env whenEmpty body) (sequence env.withoutLines whenEmpty' body) := by
  obtain ⟨temporaries, ss, span⟩ := body
  rw [sequence, sequence]
  have hss := sameCode_statements ss
  refine .bind (sameCode_declareTemporaries env temporaries) fun _ => ?_
  dsimp only
  split_ifs
  · exact .bind (sameCode_emit (by simp)) fun _ => .bind h fun _ => sameCode_emit (by simp)
  · exact .bind hss fun _ => sameCode_emit (by simp)

theorem sameCode_statements (ss : List Statement) :
    SameCode (statements env ss) (statements env.withoutLines ss) := by
  cases ss with
  | nil => exact .pure ()
  | cons statement rest =>
    rw [statements, statements]
    exact .check _ (.bind (sameCode_statement rest.isEmpty statement) fun _ =>
      sameCode_statements rest)

theorem sameCode_statement (isLast : Bool) (statement : Statement) :
    SameCode (Compile.statement env isLast statement)
      (Compile.statement env.withoutLines isLast statement) := by
  cases statement with
  | expression value =>
    exact sameCode_statementWith env isLast value.span
      (sameCode_asValue env value.span (sameCode_receiver value))
  | answer value span =>
    exact sameCode_statementWith env isLast span (.bind (sameCode_emit (by simp)) fun _ =>
      .bind (sameCode_asValue env value.span (sameCode_receiver value)) fun _ =>
      sameCode_emit (by simp))

end

def Generated.withoutLines (g : Generated) : Generated where
  sendMessages := g.sendMessages.withoutLines
  blocks := g.blocks.map Method.withoutLines
  markers := g.markers.map ClassFile.withoutLines

theorem erases_script (s : Script) :
    Erases Method.withoutLines (script env s) (script env.withoutLines s) := by
  refine .bind (sameCode_modify fun _ => rfl) fun _ =>
    .bind (sameCode_sequence env s.body (sameCode_emit (by simp))) fun _ =>
    .bind (sameCode_modify fun _ => rfl) fun _ =>
    .bind (f := State.withoutLines) (fun _ => rfl) fun state =>
    .bind (f := MethodBody.withoutLines) ?_ fun body => .pure _
  change Erases _ _ (ofExcept (state.current.withoutLines.finish s.span))
  rw [finish_withoutLines]
  cases state.current.finish s.span with
  | error e => exact .throw e
  | ok body => exact .pure body

theorem generate_erases (s : Script) :
    generate env.withoutLines s = (generate env s).map Generated.withoutLines := by
  have hscript := erases_script env s (State.initial env)
  have hinitial : (State.initial env).withoutLines = State.initial env.withoutLines := by
    simp [State.initial, State.withoutLines, MethodFrame.withoutLines, Draft.withoutLines,
      Env.method, Draft.method, Env.withoutLines, Env.scriptLocals, Env.library]
  rw [hinitial] at hscript
  unfold generate
  rw [hscript]
  cases script env s (State.initial env) with
  | error e state => rfl
  | ok method state => simp [erased, Except.map, Generated.withoutLines, State.withoutLines]

/-- All methods that a script becomes, those of the marker classes included. -/
def Generated.methods (g : Generated) : List Method :=
  g.sendMessages :: (g.blocks ++ g.markers.flatMap ClassFile.methods)

theorem Generated.methods_withoutLines (g : Generated) :
    g.withoutLines.methods = g.methods.map Method.withoutLines := by
  simp [methods, withoutLines, List.flatMap_map, List.map_flatMap, ClassFile.withoutLines]

theorem lines_withoutLines (b : MethodBody) : b.withoutLines.lines = [] := by
  refine List.filterMap_eq_nil_iff.2 fun i hi => ?_
  have hline : i.isLine = false := by simpa using (List.mem_filter.1 hi).2
  cases i <;> first | rfl | cases hline

end

end Compile

open Compile

/-- Whether source lines are recorded changes nothing but the recording: compilation fails with the
same error, or gives the same methods, blocks and marker classes up to their source lines; and there
are none if they are not asked for. -/
theorem generate_lineNumbers (settings : Settings) (unit : UnitName) (script : Script)
    (first second : Bool) :
    let compile (lines : Bool) := generate ⟨{ settings with lineNumbers := lines }, unit⟩ script
    (∀ e, compile first = .error e ↔ compile second = .error e) ∧
      (∀ g, compile first = .ok g →
        ∃ g', compile second = .ok g' ∧ g.withoutLines = g'.withoutLines) ∧
      ∀ g, compile false = .ok g → ∀ m ∈ g.methods, m.body.lines = [] := by
  intro compile
  have herases (lines : Bool) : compile false = (compile lines).map Generated.withoutLines :=
    generate_erases ⟨{ settings with lineNumbers := lines }, unit⟩ script
  have hsame : (compile first).map Generated.withoutLines =
      (compile second).map Generated.withoutLines := (herases first).symm.trans (herases second)
  refine ⟨fun e => ?_, fun g hg => ?_, fun g hg m hm => ?_⟩
  · cases h₁ : compile first <;> cases h₂ : compile second <;> simp_all [Except.map]
  · rw [hg] at hsame
    cases h₂ : compile second with
    | error e =>
      rw [h₂] at hsame
      cases hsame
    | ok g' =>
      rw [h₂] at hsame
      exact ⟨g', rfl, Except.ok.inj hsame⟩
  · have hg' := herases false
    rw [hg] at hg'
    rw [Except.ok.inj hg', Generated.methods_withoutLines] at hm
    obtain ⟨m', -, rfl⟩ := List.mem_map.1 hm
    exact lines_withoutLines m'.body

theorem lineNumbers_of_sample : ∃ g g',
    generate Sample.env Sample.script = .ok g ∧ g.sendMessages.body.lines ≠ [] ∧
    generate Sample.env.withoutLines Sample.script = .ok g' ∧ g.withoutLines = g'.withoutLines ∧
    ∀ m ∈ g'.methods, m.body.lines = [] := by
  obtain ⟨g, hg⟩ := Sample.generates
  obtain ⟨-, hsame, hnone⟩ := generate_lineNumbers {} Sample.unit Sample.script true false
  obtain ⟨g', hg', heq⟩ := hsame g hg
  have hlines : decide (g.sendMessages.body.lines ≠ []) = true :=
    holds_of_outlines (p := fun g => g.sendMessages.body.lines ≠ []) hg (by decide)
      (by decide +kernel)
  exact ⟨g, g', hg, of_decide_eq_true hlines, hg', heq, hnone g' hg'⟩

end SmalltalkJvm
