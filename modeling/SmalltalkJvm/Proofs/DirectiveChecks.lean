import SmalltalkJvm.Proofs.Acceptance
import SmalltalkJvm.Proofs.Bookkeeping
import SmalltalkJvm.Proofs.Boundaries

/-! # Directives are checked before they are carried out

Wherever a script is compiled, a directive is refused by name, with nothing emitted but a source
line, or it is carried out without a fault and does to the operand stack what it says. So what is
wrong with a directive never comes out only when the method is finished.

A directive can rely on the local variables of its method: they are those of a script or a block, on
entry and ever after.
-/

namespace SmalltalkJvm

open Compile

/-- The draft of a method of a script or a block, with its local variables as on entry. -/
structure Draft.InMethod (env : Env) (d : Draft) : Prop where
  kept : d.locals = d.entryLocals
  entry : d.entryLocals = env.scriptLocals ∨ d.entryLocals = env.blockLocals

def State.InMethod (env : Env) (s : State) : Prop :=
  s.current.draft.fault = none → s.current.draft.InMethod env

section

variable {env : Env} {d d' : Draft} {s s' : State} {t t' : Task}

theorem Draft.InMethod.frame (h : d.InMethod env) : env.Frame d.locals := by
  rw [h.kept]
  rcases h.entry with hlocals | hlocals
  · rw [hlocals]
    exact env.frame_script
  · rw [hlocals]
    exact env.frame_block

theorem Draft.InMethod.references (h : d.InMethod env) : ∀ t ∈ d.locals, t.isReference = true := by
  rw [h.kept]
  rcases h.entry with hlocals | hlocals
  · simp [hlocals, Env.scriptLocals, VerificationType.isReference]
  · simp [hlocals, Env.blockLocals, VerificationType.isReference]

theorem Draft.InMethod.at (h : d.InMethod env) (hr : d.reachable = true) (hf : d.fault = none) :
    d.At ⟨d.stack.entries, d.locals⟩ :=
  ⟨hr, hf, rfl, h.kept.symm⟩

theorem Draft.InMethod.extends (h : d.InMethod env) (k : d.Extends d') : d'.InMethod env := by
  refine ⟨?_, ?_⟩
  · rw [k.locals, k.entryLocals, h.kept]
  · rw [k.entryLocals]
    exact h.entry

theorem State.InMethod.grows (h : s.InMethod env) {p : Plan} {literals : List BlockLiteral}
    (k : Grows env s s' p literals) : s'.InMethod env := by
  intro hf
  have hs := h (k.fault hf)
  obtain ⟨-, methods, files, hemits⟩ := k
  obtain ⟨names, hnames⟩ := exists_agree s.blocks.size methods
  rw [hemits.draft names hnames] at hf ⊢
  exact hs.extends (Code.run_builds env hf).toExtends

theorem State.InMethod.run (h : s.InMethod env) (hrun : t.run env s = .ok () s') :
    s'.InMethod env := by
  obtain ⟨p, literals, hgrows⟩ := Task.grows (fun _ => rfl) hrun
  exact h.grows hgrows

theorem State.InMethod.emitted (h : s.InMethod env) (operations : List Operation) :
    (s.withDraft (s.current.draft.runOperations operations)).InMethod env :=
  h.grows (Grows.operations env rfl)

theorem State.InMethod.opened (h : s.InMethod env) (span : Span) :
    (s.opened span).InMethod env := by
  intro hf
  have hs : (s.opened span).current.draft = s.current.draft.openRegion := rfl
  rw [hs, Draft.openRegion_eq] at hf ⊢
  exact ⟨(h hf).kept, (h hf).entry⟩

theorem State.InMethod.within (h : s.InMethod env) (wanted : Bool) (span : Span) :
    (s.within wanted span).InMethod env := by
  cases wanted with
  | false => exact h
  | true => exact h.opened span

theorem State.InMethod.noted (h : s.InMethod env) {first : Bool} {part : KeywordPart}
    (hnote : notePart first part s = .ok () s') : s'.InMethod env := by
  obtain ⟨pending, rfl⟩ := notePart_ok hnote
  exact h

/-- The method of a block starts with the local variables of one. -/
theorem State.inMethod_entered {literal : BlockLiteral}
    (h : (do
        let _ ← nameBlock
        enterMethod (env.method env.blockLocals)
        pushScope
        literal.parameters.forM (declare .argument)
        declareTemporaries env literal.body.temporaries : Compile Unit) s = .ok () s') :
    s'.InMethod env := by
  obtain ⟨name, s₁, -, h⟩ := bind_ok h
  obtain ⟨⟨⟩, s₂, henter, h⟩ := bind_ok h
  obtain ⟨⟨⟩, s₃, hpush, h⟩ := bind_ok h
  obtain ⟨⟨⟩, s₄, hdeclare, h⟩ := bind_ok h
  cases henter
  cases hpush
  obtain ⟨scope, hdeclares, rfl⟩ := declareAll_ok (D := fun ps top => top.Declares ps [])
    (fun hd hc => hd.argument hc) hdeclare rfl Scope.declares_empty
  obtain ⟨top, -, rfl⟩ := declareTemporaries_ok env rfl hdeclares h
  apply State.InMethod.emitted
  exact fun _ => ⟨rfl, .inr rfl⟩

theorem Task.Calls.inMethod (hcall : t.Calls env s t' s') (h : s.InMethod env) :
    s'.InMethod env := by
  cases hcall with
  | target => exact h.within _ _
  | sent hr => exact (h.within _ _).run (t := .expression _) (run_expression.2 ⟨_, hr⟩)
  | cascaded hr => exact h.run (t := .expression _) (run_expression.2 ⟨_, hr⟩)
  | cascadeTarget | assigned | inner | literal | operand => exact h
  | arguments hopen =>
    cases hopen
    exact h
  | lastMessage => exact h.within _ _
  | nextMessage hdup =>
    cases hdup
    exact (h.emitted [.dup]).within _ _
  | otherMessages hdup hmessage hdiscard =>
    cases hdup
    cases hdiscard
    have hgrows := inRegion_grows env (s := s.withDraft _) (fun s₁ s₂ hscopes =>
      message_grows env _ fun name => congrArg (ScopeStack.resolve · name) hscopes) hmessage
    exact ((h.emitted [.dup]).grows hgrows).emitted [.discard]
  | argument hnote => exact h.noted hnote
  | otherArguments hnote hpart => exact (h.noted hnote).run hpart
  | body hbody hentered => exact State.inMethod_entered hentered
  | statement hopen =>
    cases hopen
    exact h.opened _
  | answer hopen =>
    cases hopen
    exact (h.opened _).emitted [.line _]
  | otherStatements hfirst =>
    exact h.grows (statement_grows env _ (fun _ => rfl) hfirst)

/-- All constructs are compiled in a method of a script or a block. -/
theorem Script.Visits.inMethod {script : Script} (h : script.Visits env t s) : s.InMethod env := by
  induction h with
  | start hbody hstart =>
    obtain ⟨⟨⟩, s₁, hpush, hstart⟩ := bind_ok hstart
    cases hpush
    obtain ⟨top, -, rfl⟩ := declareTemporaries_ok env rfl Scope.declares_empty hstart
    apply State.InMethod.emitted
    exact fun _ => ⟨rfl, .inl rfl⟩
  | lead _ hleads ih =>
    cases hleads with
    | call _ hcall => exact hcall.inMethod ih
    | directive => exact ih
    | otherDirectives hmessage => exact ih.run (t := .message .escape _) hmessage

end

def PushesReference (stack stack' : List VerificationType) : Prop :=
  ∃ t, t.isReference = true ∧ stack' = t :: stack

/-- The effect of a call of the given descriptor on the types of the stack: the parameters and the
receivers are taken, and a reference takes their place unless the call returns nothing. -/
def CallAffects (receivers : Nat) (descriptor : String) (stack stack' : List VerificationType) :
    Prop :=
  ∃ d operands rest, MethodDescriptor.parse descriptor = .ok d ∧ stack = operands ++ rest ∧
    operands.length = d.parameters.length + receivers ∧
    match d.result with
    | some _ => PushesReference rest stack'
    | none => stack' = rest

def Compile.Directive.Affects : Directive → List String → List VerificationType →
    List VerificationType → Prop
  | .argLoad, [_], stack, stack' | .aload, [_], stack, stack' | .primitive, [_], stack, stack'
  | .getStatic, [_, _, _], stack, stack' => PushesReference stack stack'
  | .invokeVirtual, [_, _, descriptor], stack, stack' => CallAffects 1 descriptor stack stack'
  | .invokeStatic, [_, _, descriptor], stack, stack' => CallAffects 0 descriptor stack stack'
  | _, _, _, _ => False

def Compile.Directive.arity : Directive → Nat
  | .argLoad | .aload | .primitive => 1
  | .invokeVirtual | .invokeStatic | .getStatic => 3

theorem Compile.Directive.count_ofSelector? {name : String} {kind : Directive}
    (h : ofSelector? name = some kind) : name.toList.count ':' = kind.arity := by
  unfold ofSelector? at h
  split at h <;> cases h <;> decide +kernel

theorem count_selectorOf {parts : List KeywordPart} (h : ∀ p ∈ parts, IsKeyword p.keyword.name) :
    (selectorOf parts).toList.count ':' = parts.length := by
  have hfold (ps : List KeywordPart) (start : String) (hps : ∀ p ∈ ps, IsKeyword p.keyword.name) :
      (ps.foldl (fun selector p => selector ++ p.keyword.name) start).toList.count ':' =
        start.toList.count ':' + ps.length := by
    induction ps generalizing start with
    | nil => rfl
    | cons p ps ih =>
      obtain ⟨hp, hps⟩ := List.forall_mem_cons.1 hps
      have hcolon : p.keyword.name.toList.count ':' = 1 := hp.2.2
      rw [List.foldl_cons, ih _ hps, String.toList_append, List.count_append, hcolon,
        List.length_cons]
      omega
  exact (hfold parts "" h).trans (Nat.zero_add _)

/-- The message of a directive has as many parts as the directive has arguments. -/
theorem length_of_ofSelector? {parts : List KeywordPart} {kind : Directive}
    (h : ∀ p ∈ parts, IsKeyword p.keyword.name)
    (hkind : Directive.ofSelector? (selectorOf parts) = some kind) : parts.length = kind.arity := by
  rw [← count_selectorOf h, kind.count_ofSelector? hkind]

section

variable {env : Env} {name : String} {span : Span} {s : State}
  {locals stack : List VerificationType}

/-- An action is refused as a directive, with the state as it was, or goes on with the draft alone,
which has no fault and whose stack is as expected. -/
def DirectiveOutcome (name : String) (locals : List VerificationType)
    (expected : List VerificationType → Prop) (s : State)
    (result : EStateM.Result CompileError State Unit) : Prop :=
  (∃ fault place, result = .error ⟨.directive name fault, place⟩ s) ∨
    ∃ d stack, result = .ok () (s.withDraft d) ∧ d.At ⟨stack, locals⟩ ∧ expected stack

theorem DirectiveOutcome.refused {expected : List VerificationType → Prop}
    (fault : DirectiveFault) :
    DirectiveOutcome name locals expected s (.error ⟨.directive name fault, span⟩ s) :=
  .inl ⟨fault, span, rfl⟩

/-- Operations with an effect are carried out. -/
theorem DirectiveOutcome.operations (env : Env) {expected : List VerificationType → Prop}
    (hat : s.current.draft.At ⟨stack, locals⟩) {P : Flow → Instruction → Prop}
    (operations : List Operation) {stack' : List VerificationType}
    (h : Operation.TurnAll P locals operations stack stack') (hexpected : expected stack') :
    DirectiveOutcome name locals expected s
      (.ok () (s.withDraft (s.current.draft.runOperations operations))) := by
  have hmoves : (Code.operations operations).Moves env P locals stack stack' := .operations h
  exact .inr ⟨_, stack', rfl, (hmoves _ hat).1, hexpected⟩

/-- A call has its effect if there are operands for it. -/
theorem turns_call {operation : Operation} {op : Opcode} {method : MemberRef}
    (hop : operation.step = .invoke op method) {descriptor : MethodDescriptor}
    (hparse : MethodDescriptor.parse method.descriptor = .ok descriptor)
    {operands rest : List VerificationType}
    (hlength : operands.length =
      descriptor.parameters.length + (if op = .invokestatic then 0 else 1)) :
    operation.Turns (fun _ _ => True) locals (operands ++ rest)
      ((⟨rest, locals⟩ : Flow).pushResult descriptor.result).stack := by
  have hpushed : (⟨rest, locals⟩ : Flow).pushResult descriptor.result =
      ⟨((⟨rest, locals⟩ : Flow).pushResult descriptor.result).stack, locals⟩ := by
    cases descriptor.result <;> rfl
  have hplain : op ≠ .invokespecial := by
    cases operation <;> cases hop <;> simp
  have hdrop {first : List VerificationType} {n : Nat} (hn : n ≤ first.length) :
      (⟨first ++ rest, locals⟩ : Flow).drop? n = some ⟨first.drop n ++ rest, locals⟩ := by
    rw [Flow.drop?, if_pos (by rw [List.length_append]; omega)]
    simp [List.drop_append_of_le_length hn]
  have hreceive : (⟨operands.drop descriptor.parameters.length ++ rest, locals⟩ : Flow).receive?
      none op method = some ⟨rest, locals⟩ := by
    rw [Flow.receive?_eq_drop? _ _ _ hplain, hdrop (by simp [hlength]), List.drop_drop, ← hlength,
      List.drop_length, List.nil_append]
  have heffect : (Instruction.invoke op method).effect? none 0 ⟨operands ++ rest, locals⟩ =
      some ⟨((⟨rest, locals⟩ : Flow).pushResult descriptor.result).stack, locals⟩ := by
    rw [← hpushed]
    simp [Instruction.effect?, hparse, Except.toOption, hdrop (hlength ▸ Nat.le_add_right _ _),
      hreceive]
  cases operation <;> cases hop <;> exact ⟨heffect, by simp, by simp, trivial⟩

theorem directiveInvoke_outcome (env : Env) (hat : s.current.draft.At ⟨stack, locals⟩)
    (operation : Operation) {op : Opcode} {method : MemberRef}
    (hop : operation.step = .invoke op method) :
    DirectiveOutcome name locals
      (CallAffects (if op = .invokestatic then 0 else 1) method.descriptor stack) s
      (directiveInvoke name op method span s) := by
  cases hparse : MethodDescriptor.parse method.descriptor with
  | error e =>
    simp only [directiveInvoke, hparse]
    exact .refused _
  | ok descriptor =>
    obtain ⟨needed, hneeded⟩ : ∃ n, n =
      descriptor.parameters.length + (if op = .invokestatic then 0 else 1) := ⟨_, rfl⟩
    have hdepth : s.current.draft.stack.depth = stack.length := Code.depth_of_at hat
    simp only [directiveInvoke, hparse, ← hneeded]
    change DirectiveOutcome name locals _ s
      ((if s.current.draft.stack.depth < needed then _ else _ : Compile Unit) s)
    rw [hdepth]
    by_cases hoperands : stack.length < needed
    · rw [if_pos hoperands]
      exact .refused _
    · rw [if_neg hoperands]
      cases hall :
          (descriptor.parameters ++ descriptor.result.toList).all FieldType.isReference with
      | false => exact .refused _
      | true =>
        have htaken : (stack.take needed).length = needed := by
          rw [List.length_take]
          omega
        have hturns : operation.Turns _ locals (stack.take needed ++ stack.drop needed) _ :=
          turns_call hop hparse (htaken.trans hneeded)
        rw [List.take_append_drop] at hturns
        have hemit : emit (.invoke op method) s =
            .ok () (s.withDraft (s.current.draft.runOperations [operation])) := by
          rw [← hop]
          rfl
        rw [List.all_append, Bool.and_eq_true] at hall
        change DirectiveOutcome name locals _ s (emit (.invoke op method) s)
        rw [hemit]
        refine DirectiveOutcome.operations env hat [operation] ⟨_, hturns, rfl⟩ ⟨descriptor, _, _,
          hparse, (List.take_append_drop needed stack).symm, htaken.trans hneeded, ?_⟩
        cases hresult : descriptor.result with
        | none => rfl
        | some t =>
          have hreference : t.isReference = true := by simpa [hresult] using hall.2
          exact ⟨_, (VerificationType.isReference_ofFieldType t).trans hreference, rfl⟩

theorem directiveField_outcome (env : Env) (hat : s.current.draft.At ⟨stack, locals⟩)
    (field : MemberRef) :
    DirectiveOutcome name locals (PushesReference stack) s
      (directiveField name field span s) := by
  cases hparse : FieldType.parse field.descriptor with
  | error e =>
    simp only [directiveField, hparse]
    exact .refused _
  | ok t =>
    simp only [directiveField, hparse]
    cases ht : t.isReference with
    | false => exact .refused _
    | true =>
      have hturns : (Operation.getStatic field).Turns (fun _ _ => True) locals stack
          (.ofFieldType t :: stack) := by
        refine ⟨?_, by simp, by simp, trivial⟩
        simp [Operation.instruction, Instruction.effect?, hparse, Except.toOption, Flow.push]
      exact DirectiveOutcome.operations env hat [.getStatic field] ⟨_, hturns, rfl⟩
        ⟨_, (VerificationType.isReference_ofFieldType t).trans ht, rfl⟩

theorem directiveLoad_outcome (env : Env) (hat : s.current.draft.At ⟨stack, locals⟩)
    (hlocals : ∀ t ∈ locals, t.isReference = true) (slot : UInt16) :
    DirectiveOutcome name locals (PushesReference stack) s
      (directiveLoad name slot span s) := by
  have hentry : s.current.draft.entryLocals = locals := hat.entry
  change DirectiveOutcome name locals _ s
    ((if slot.toNat < s.current.draft.entryLocals.length then _ else _ : Compile Unit) s)
  rw [hentry]
  by_cases hslot : slot.toNat < locals.length
  · rw [if_pos hslot]
    have hlocal := List.getElem?_eq_getElem hslot
    have hturns : (Operation.load slot).Turns env.Typed locals stack _ :=
      Operation.turns_load stack hlocal
    exact DirectiveOutcome.operations env hat [.load slot] ⟨_, hturns, rfl⟩
      ⟨_, hlocals _ (List.getElem_mem hslot), rfl⟩
  · rw [if_neg hslot]
    exact .refused _

theorem directivePrimitive_outcome (hl : env.library.Legal) (hframe : env.Frame locals)
    (hat : s.current.draft.At ⟨stack, locals⟩) (number : UInt16) :
    DirectiveOutcome name locals (PushesReference stack) s
      (directivePrimitive env number s) := by
  have hplain : ∀ p ∈ [Parameter.object env.library.context], p.Plain :=
    List.forall_mem_singleton.2 hl.context.2.1
  have hwrites : Signature.Writes ⟨[.object env.library.context], some env.library.object⟩
      s!"({env.library.contextType}){env.library.objectType}" :=
    writes_object env.library hplain (by simp [toList_contextType])
  have hlegible := hwrites.legible ⟨List.forall_mem_singleton.2 ⟨hl.context.1, hl.context.2.2⟩,
    by rintro _ ⟨⟩; exact ⟨hl.object.1, hl.object.2.1⟩⟩
  exact DirectiveOutcome.operations env hat
    [.load 1, .load 2, Operation.object env s!"primitive{number.toNat}"
      s!"({env.library.contextType}){env.library.objectType}"]
    ⟨_, Operation.turns_load stack hframe.receiver, _, Operation.turns_load _ hframe.context, _,
      Operation.turns_object stack s!"primitive{number.toNat}" hwrites hlegible
        (.cons (assignable_object _) .nil), rfl⟩ ⟨_, rfl, rfl⟩

theorem pushArgument_outcome (hl : env.library.Legal) (hframe : env.Frame locals)
    (hat : s.current.draft.At ⟨stack, locals⟩) (n : UInt16) :
    DirectiveOutcome name locals (PushesReference stack) s
      (pushArgument env n s) := by
  have hreadable : ∀ op ∈ Operation.slot env "argumentAt" n, op.Readable := fun op hop =>
    (Operation.standard_reference env "" (.argument n) op hop).readable hl
  exact DirectiveOutcome.operations env hat _ (Operation.turnAll_slot hframe stack hreadable)
    ⟨_, rfl, rfl⟩

/-- An index that cannot be read refuses the directive. -/
theorem DirectiveOutcome.index {expected : List VerificationType → Prop} {text : String}
    {action : UInt16 → Compile Unit}
    (h : ∀ n, DirectiveOutcome name locals expected s (action n s)) :
    DirectiveOutcome name locals expected s
      ((do let n ← directiveIndex name text span; action n : Compile Unit) s) := by
  unfold directiveIndex
  cases index? text with
  | none => exact .refused _
  | some n => exact h n

theorem directive_outcome (hl : env.library.Legal) (hframe : env.Frame locals)
    (hlocals : ∀ t ∈ locals, t.isReference = true) (hat : s.current.draft.At ⟨stack, locals⟩)
    {kind : Directive} {arguments : List String} (harity : arguments.length = kind.arity) :
    DirectiveOutcome name locals (kind.Affects arguments stack) s
      (directive env name kind arguments span s) := by
  cases kind with
  | argLoad =>
    obtain ⟨text, rfl⟩ := List.length_eq_one_iff.1 harity
    exact .index fun n => pushArgument_outcome hl hframe hat n
  | aload =>
    obtain ⟨text, rfl⟩ := List.length_eq_one_iff.1 harity
    exact .index fun n => directiveLoad_outcome env hat hlocals n
  | primitive =>
    obtain ⟨text, rfl⟩ := List.length_eq_one_iff.1 harity
    exact .index fun n => directivePrimitive_outcome hl hframe hat n
  | invokeVirtual =>
    obtain ⟨owner, method, descriptor, rfl⟩ := List.length_eq_three.1 harity
    exact directiveInvoke_outcome env hat (.invokeVirtual _) rfl
  | invokeStatic =>
    obtain ⟨owner, method, descriptor, rfl⟩ := List.length_eq_three.1 harity
    exact directiveInvoke_outcome env hat (.invokeStatic _) rfl
  | getStatic =>
    obtain ⟨owner, field, descriptor, rfl⟩ := List.length_eq_three.1 harity
    exact directiveField_outcome env hat _

/-- An argument that is no text refuses the directive. -/
theorem directiveArguments_error {parts : List KeywordPart} {e : CompileError}
    (h : parts.mapM (directiveArgument name) = .error e) :
    ∃ fault place, e = ⟨.directive name fault, place⟩ := by
  obtain ⟨part, -, hpart⟩ := except_mapM_error h
  unfold directiveArgument at hpart
  split at hpart <;> cases hpart
  exact ⟨_, _, rfl⟩

theorem Draft.At.openLine {d : Draft} {f : Flow} (h : d.At f) (number : Nat) :
    (d.openLine number).At f := by
  unfold Draft.openLine
  split_ifs
  · exact ⟨h.reachable, h.fault, h.flow, h.entry⟩
  · exact h

/-- In a method of a script or a block a directive is refused or carried out. -/
theorem escape_outcome (span : Span) (hl : env.library.Legal) (hs : s.current.draft.InMethod env)
    (hr : s.current.draft.reachable = true) (hf : s.current.draft.fault = none)
    {parts : List KeywordPart} (hparts : ∀ p ∈ parts, IsKeyword p.keyword.name) :
    (∃ fault place, escape env parts span s =
        .error ⟨.directive (selectorOf parts) fault, place⟩ s) ∨
      ∃ kind arguments, Directive.ofSelector? (selectorOf parts) = some kind ∧
        parts.mapM (directiveArgument (selectorOf parts)) = .ok arguments ∧
        let lined := s.withDraft (s.current.draft.openLine span.line)
        DirectiveOutcome (selectorOf parts) s.current.draft.locals
          (kind.Affects arguments s.current.draft.stack.entries) lined
          (escape env parts span s) := by
  cases hkind : Directive.ofSelector? (selectorOf parts) with
  | none =>
    refine .inl ⟨.unknown, span, ?_⟩
    simp only [escape, hkind]
    rfl
  | some kind =>
    cases harguments : parts.mapM (directiveArgument (selectorOf parts)) with
    | error e =>
      obtain ⟨fault, place, rfl⟩ := directiveArguments_error harguments
      refine .inl ⟨fault, place, ?_⟩
      simp only [escape, hkind, harguments]
      rfl
    | ok arguments =>
      have harity : arguments.length = kind.arity := by
        rw [← (except_mapM_ok harguments).length_eq, length_of_ofSelector? hparts hkind]
      refine .inr ⟨kind, arguments, rfl, rfl, ?_⟩
      have hat := (hs.at hr hf).openLine span.line
      have hescape : escape env parts span s = directive env (selectorOf parts) kind arguments span
          (s.withDraft (s.current.draft.openLine span.line)) := by
        simp only [escape, hkind, harguments]
        rfl
      rw [hescape]
      exact directive_outcome hl hs.frame hs.references hat harity

end

/-- Directives are checked completely. In a script under compilation, where control can come and
nothing has gone wrong, a well-formed keyword message to the escape identifier is refused as a
directive, with nothing changed but a source line opened at most; or it is carried out: nothing but
the draft changes, it has no fault, control goes on, and the stack is changed by the effect of the
directive. -/
theorem escape_refuses_or_affects {env : Env} (hl : env.library.Legal) {script : Script} {t : Task}
    {s : State} (hvisits : script.Visits env t s) (hr : s.current.draft.reachable = true)
    (hf : s.current.draft.fault = none) {parts : List KeywordPart} {span : Span}
    (hparts : checkParts parts span s = .ok () s) :
    (∃ fault place s',
        escape env parts span s = .error ⟨.directive (selectorOf parts) fault, place⟩ s' ∧
        (s' = s ∨ s' = s.withDraft (s.current.draft.openLine span.line))) ∨
      ∃ kind arguments d, Directive.ofSelector? (selectorOf parts) = some kind ∧
        parts.mapM (directiveArgument (selectorOf parts)) = .ok arguments ∧
        escape env parts span s = .ok () (s.withDraft d) ∧ d.fault = none ∧ d.reachable = true ∧
        kind.Affects arguments s.current.draft.stack.entries d.stack.entries := by
  have hdecides := checkParts_decides parts span s
  simp only [Decides, hparts] at hdecides
  rcases escape_outcome span hl (hvisits.inMethod hf) hr hf hdecides.2 with
    ⟨fault, place, hrefused⟩ | ⟨kind, arguments, hkind, harguments, houtcome⟩
  · exact .inl ⟨fault, place, s, hrefused, .inl rfl⟩
  · rcases houtcome with ⟨fault, place, hrefused⟩ | ⟨d, stack, hok, hat, haffects⟩
    · exact .inl ⟨fault, place, _, hrefused, .inr rfl⟩
    · have hstack : d.stack.entries = stack := congrArg Flow.stack hat.flow
      refine .inr ⟨kind, arguments, d, hkind, harguments, hok, hat.fault, hat.reachable, ?_⟩
      rw [hstack]
      exact haffects

/-- At the start of a script the receiver can be loaded, but there is nothing to call on. -/
theorem escape_affects_start : ∃ fault place s' d t,
    escape Sample.env Sample.call Sample.span Sample.start =
      .error ⟨.directive (selectorOf Sample.call) fault, place⟩ s' ∧
    escape Sample.env Sample.load Sample.span Sample.start = .ok () (Sample.start.withDraft d) ∧
    d.fault = none ∧ t.isReference = true ∧ d.stack.entries = [t] := by
  have hstart : Sample.directives.Visits Sample.env _ Sample.start :=
    .start (List.cons_ne_nil _ _) rfl
  have hcall : (EStateM.run' (fun _ => escape Sample.env Sample.call Sample.span Sample.start)
      Sample.start).isSome = false := by decide +kernel
  have hload : (EStateM.run' (fun _ => escape Sample.env Sample.load Sample.span Sample.start)
      Sample.start).isSome = true := by decide +kernel
  have hcalls : checkParts Sample.call Sample.span Sample.start = .ok () Sample.start := rfl
  have hloads : checkParts Sample.load Sample.span Sample.start = .ok () Sample.start := rfl
  rcases escape_refuses_or_affects Sample.legal hstart rfl rfl hcalls with
    ⟨fault, place, s', hrefused, -⟩ | ⟨_, _, _, _, _, hok, -⟩
  · rcases escape_refuses_or_affects Sample.legal hstart rfl rfl hloads with
      ⟨_, _, _, hrefused', -⟩ | ⟨kind, arguments, d, hkind, harguments, hok, hf, -, haffects⟩
    · rw [hrefused'] at hload
      cases hload
    · cases harguments
      have haload : Directive.ofSelector? (selectorOf Sample.load) = some .aload := by
        decide +kernel
      cases haload.symm.trans hkind
      obtain ⟨t, ht, hstack⟩ := haffects
      exact ⟨fault, place, s', d, t, hrefused, hok, hf, ht, hstack⟩
  · rw [hok] at hcall
    cases hcall

end SmalltalkJvm
