import SmalltalkJvm.Proofs.ExpressionTypes

/-! # The way through a script

Which constructs are compiled on the way through a script, and from which states: a relation between
a construct and those that it has compiled next, in terms of the steps that the compiler makes in
between.

In a script that compiles all of them can be completed. From every state on the way, the code of an
expression goes on with one more value of the support library on the stack.
-/

namespace SmalltalkJvm

open Compile

/-- What the compiler can be at work on. -/
inductive Task where
  | expression (e : Expr)
  | message (r : Receiver) (m : Message)
  | cascade (r : Receiver) (messages : List Message)
  | arguments (first : Bool) (parts : List KeywordPart)
  | block (literal : BlockLiteral)
  | statements (ss : List Statement)

variable (env : Env)

def Task.run : Task → Compile Unit
  | expression e => do
    let _ ← receiver env e
    pure ()
  | message r m => Compile.message env r m
  | cascade r messages => Compile.cascade env r messages
  | arguments first parts => Compile.arguments env first parts
  | block literal =>
    Compile.block env literal.role literal.parameters literal.body.answers literal.span
      (sequence env (pushNil env) literal.body)
  | statements ss => Compile.statements env ss

def KeywordPart.task (part : KeywordPart) : Task :=
  match part.argument with
  | .block parameters body span =>
    .block ⟨roleOf env part.keyword.name, parameters, body, span⟩
  | other => .expression other

def Task.directs : Task → Bool
  | message .escape _ | cascade .escape _ => true
  | _ => false

def State.within (s : State) (wanted : Bool) (span : Span) : State :=
  if wanted then s.opened span else s

/-- Compiling a construct from a state has another compiled, from a state on the way. -/
inductive Task.Calls : Task → State → Task → State → Prop where
  | target {target : Expr} {m : Message} {span : Span} {s : State} :
      Calls (.expression (.send target m span)) s (.expression target) (s.within m.isKeyword span)
  | sent {target : Expr} {m : Message} {span : Span} {r : Receiver} {s s₁ : State}
      (h : receiver env target (s.within m.isKeyword span) = .ok r s₁) :
      Calls (.expression (.send target m span)) s (.message r m) s₁
  | cascadeTarget {target : Expr} {messages : List Message} {span : Span} {s : State} :
      Calls (.expression (.cascade target messages span)) s (.expression target) s
  | cascaded {target : Expr} {messages : List Message} {span : Span} {r : Receiver} {s s₁ : State}
      (h : receiver env target s = .ok r s₁) :
      Calls (.expression (.cascade target messages span)) s (.cascade r messages) s₁
  | assigned {target : Ident} {value : Expr} {span : Span} {s : State} :
      Calls (.expression (.assign target value span)) s (.expression value) s
  | inner {inner : Expr} {span : Span} {s : State} :
      Calls (.expression (.paren inner span)) s (.expression inner) s
  | literal {parameters : List Ident} {body : Sequence} {span : Span} {s : State} :
      Calls (.expression (.block parameters body span)) s
        (.block ⟨.value, parameters, body, span⟩) s
  | operand {r : Receiver} {selector : Ident} {argument : Expr} {span : Span} {s : State} :
      Calls (.message r (.binary selector argument span)) s (.expression argument) s
  | arguments {r : Receiver} {parts : List KeywordPart} {span : Span} {s s₁ : State}
      (h : openSend span s = .ok () s₁) :
      Calls (.message r (.keyword parts span)) s (.arguments true parts) s₁
  | lastMessage {r : Receiver} {m : Message} {s : State} :
      Calls (.cascade r [m]) s (.message r m) (s.within m.isKeyword m.span)
  | nextMessage {r : Receiver} {m next : Message} {rest : List Message} {s s₁ : State}
      (h : emit (.plain .dup) s = .ok () s₁) :
      Calls (.cascade r (m :: next :: rest)) s (.message r m) (s₁.within m.isKeyword m.span)
  | otherMessages {r : Receiver} {m next : Message} {rest : List Message} {s s₁ s₂ s₃ : State}
      (h : emit (.plain .dup) s = .ok () s₁)
      (hmessage : inRegion env m.isKeyword m.span (Compile.message env r m) s₁ = .ok () s₂)
      (hdiscard : emit .discard s₂ = .ok () s₃) :
      Calls (.cascade r (m :: next :: rest)) s (.cascade r (next :: rest)) s₃
  | argument {first : Bool} {part : KeywordPart} {rest : List KeywordPart} {s s₁ : State}
      (h : notePart first part s = .ok () s₁) :
      Calls (.arguments first (part :: rest)) s (part.task env) s₁
  | otherArguments {first : Bool} {part : KeywordPart} {rest : List KeywordPart} {s s₁ s₂ : State}
      (h : notePart first part s = .ok () s₁) (hpart : (part.task env).run env s₁ = .ok () s₂) :
      Calls (.arguments first (part :: rest)) s (.arguments false rest) s₂
  | body {literal : BlockLiteral} {s s₁ : State} (hbody : literal.body.statements ≠ [])
      (h : (do
        let _ ← nameBlock
        enterMethod (env.method env.blockLocals)
        pushScope
        literal.parameters.forM (declare .argument)
        declareTemporaries env literal.body.temporaries : Compile Unit) s = .ok () s₁) :
      Calls (.block literal) s (.statements literal.body.statements) s₁
  | statement {value : Expr} {rest : List Statement} {s s₁ : State}
      (h : openRegion value.span s = .ok () s₁) :
      Calls (.statements (.expression value :: rest)) s (.expression value) s₁
  | answer {value : Expr} {span : Span} {rest : List Statement} {s s₁ : State}
      (h : (do openRegion span; openLine span : Compile Unit) s = .ok () s₁) :
      Calls (.statements (.answer value span :: rest)) s (.expression value) s₁
  | otherStatements {first next : Statement} {rest : List Statement} {s s₁ : State}
      (h : Compile.statement env false first s = .ok () s₁) :
      Calls (.statements (first :: next :: rest)) s (.statements (next :: rest)) s₁

inductive Script.Reaches (script : Script) : Task → State → Prop where
  | start {s : State} (hbody : script.body.statements ≠ [])
      (h : (do pushScope; declareTemporaries env script.body.temporaries : Compile Unit)
        (State.initial env) = .ok () s) :
      Reaches script (.statements script.body.statements) s
  | call {t t' : Task} {s s' : State} (h : Reaches script t s) (hcall : t.Calls env s t' s') :
      Reaches script t' s'

section

variable {env} {s s' : State} {p : Plan} {literals : List BlockLiteral}

/-- A fault stays. -/
theorem Grows.fault (h : Grows env s s' p literals) (hf : s'.current.draft.fault = none) :
    s.current.draft.fault = none := by
  obtain ⟨-, methods, files, hemits⟩ := h
  obtain ⟨names, hnames⟩ := exists_agree s.blocks.size methods
  rw [hemits.draft names hnames] at hf
  exact Code.fault_run env hf

/-- Code that goes through without a fault could be read, and so has its effect on the types. -/
theorem Grows.at (h : Grows env s s' p literals) {locals stack stack' : List VerificationType}
    (hstandard : ∀ names k, (p names k).All (Operation.Standard env.library))
    (hmoves : ∀ names k, (p names k).All Operation.Readable →
      (p names k).Moves env env.Typed locals stack stack')
    (hat : s.current.draft.At ⟨stack, locals⟩) (hf : s'.current.draft.fault = none) :
    s'.current.draft.At ⟨stack', locals⟩ := by
  obtain ⟨-, methods, files, hemits⟩ := h
  obtain ⟨names, hnames⟩ := exists_agree s.blocks.size methods
  have hdraft := hemits.draft names hnames
  rw [hdraft] at hf ⊢
  obtain ⟨hreadable, -⟩ := Code.readable_of_run env
    ((hstandard _ _).mono fun _ hop => hop.ne_areturn) hat.reachable hf
  exact (hmoves _ _ hreadable _ hat).1

variable (hs : env.Speaks) {locals stack : List VerificationType} (hframe : env.Frame locals)
  {resolve : String → Resolution} (hresolve : ∀ name, s.scopes.resolve name = resolve name)
include hs hframe hresolve

theorem receiver_at {e : Expr} (hfree : env.EscapeFree resolve e.references)
    (hat : s.current.draft.At ⟨stack, locals⟩) {r : Receiver} (h : receiver env e s = .ok r s')
    (hf : s'.current.draft.fault = none) : s'.current.draft.At ⟨env.value :: stack, locals⟩ :=
  (receiver_grows env e hresolve h).2.at
    (fun names k => (e.plan_fits env names hs.plain hfree k).standard)
    (fun _ k hr => e.plan_moves hframe hs hfree k hr stack) hat hf

theorem message_at {m : Message} (hfree : env.EscapeFree resolve m.references) {r : Receiver}
    (hr : r ≠ .escape) (hat : s.current.draft.At ⟨env.value :: stack, locals⟩)
    (h : message env r m s = .ok () s') (hf : s'.current.draft.fault = none) :
    s'.current.draft.At ⟨env.value :: stack, locals⟩ :=
  (message_grows env m hresolve h).at
    (fun names k => (m.plan_fits env names hs.plain hr hfree k).standard)
    (fun _ k hread => m.plan_moves hframe hs hr hfree k hread stack) hat hf

theorem cascade_at {messages : List Message}
    (hfree : env.EscapeFree resolve (messageReferences messages)) {r : Receiver}
    (hr : r ≠ .escape) (hat : s.current.draft.At ⟨env.value :: stack, locals⟩)
    (h : cascade env r messages s = .ok () s') (hf : s'.current.draft.fault = none) :
    s'.current.draft.At ⟨env.value :: stack, locals⟩ :=
  (cascade_grows env messages hresolve h).at
    (fun names k => (cascadePlan_fits env names hs.plain hr messages hfree k).standard)
    (fun _ k hread => cascadePlan_moves hframe hs hr messages hfree k hread stack) hat hf

theorem arguments_at {parts : List KeywordPart} {first : Bool}
    (hfree : env.EscapeFree resolve (argumentReferences parts))
    (hat : s.current.draft.At ⟨stack, locals⟩) (h : arguments env first parts s = .ok () s')
    (hf : s'.current.draft.fault = none) :
    s'.current.draft.At ⟨List.replicate parts.length env.value ++ stack, locals⟩ :=
  (arguments_grows env parts hresolve h).at
    (fun names k => (argumentsPlan_fits env names hs.plain parts hfree k).standard)
    (fun _ k hr => argumentsPlan_moves hframe hs parts hfree k hr stack) hat hf

/-- A statement that is not the last one drops its value. -/
theorem statement_at {value : Expr} (hfree : env.EscapeFree resolve value.references)
    (hat : s.current.draft.At ⟨stack, locals⟩)
    (h : statement env false (.expression value) s = .ok () s')
    (hf : s'.current.draft.fault = none) : s'.current.draft.At ⟨stack, locals⟩ :=
  (statement_grows env (.expression value) hresolve h).at
    (fun names k => (value.plan_fits env names hs.plain hfree k).standard)
    (fun _ k hr => Statement.plan_moves hframe hs hfree false k hr stack) hat hf

omit hs hresolve in
theorem block_at {literal : BlockLiteral} (hat : s.current.draft.At ⟨stack, locals⟩)
    (h : (Task.block literal).run env s = .ok () s') (hf : s'.current.draft.fault = none) :
    s'.current.draft.At ⟨env.value :: stack, locals⟩ :=
  (block_grows env literal (fun hs => sequence_grows env literal.body (fun _ => rfl) hs) h).at
    (fun names k => (literal.plan_fits env names k).standard)
    (fun _ k hr => literal.plan_moves hframe k hr stack) hat hf

end

def Task.Completes (t : Task) (s : State) : Prop :=
  ∃ s', t.run env s = .ok () s' ∧ s'.current.draft.fault = none

/-- Where the statements of a method are compiled: after its temporaries, with nothing on the
stack. -/
structure Sequence.Opens (body : Sequence) (parameters : List Ident)
    (locals : List VerificationType) (s : State) : Prop where
  resolves : ∀ name, s.scopes.resolve name = lookup parameters body.temporaries name
  types : s.current.draft.At ⟨[], locals⟩
  completes : (Task.statements body.statements).Completes env s

section

variable {env} {t t' : Task} {s s' : State} {resolve : String → Resolution}

theorem run_expression {e : Expr} :
    (Task.expression e).run env s = .ok () s' ↔ ∃ r, receiver env e s = .ok r s' := by
  constructor
  · intro h
    obtain ⟨r, s₁, hr, h⟩ := bind_ok h
    cases h
    exact ⟨r, hr⟩
  · rintro ⟨r, hr⟩
    exact bind_of_ok hr _

/-- A construct adds code to the current method and nothing else, apart from complete blocks. -/
theorem Task.grows (hresolve : ∀ name, s.scopes.resolve name = resolve name)
    (h : t.run env s = .ok () s') : ∃ p literals, Grows env s s' p literals := by
  cases t with
  | expression e =>
    obtain ⟨r, hr⟩ := run_expression.1 h
    exact ⟨_, _, (receiver_grows env e hresolve hr).2⟩
  | message r m => exact ⟨_, _, message_grows env m hresolve h⟩
  | cascade r messages => exact ⟨_, _, cascade_grows env messages hresolve h⟩
  | arguments first parts => exact ⟨_, _, arguments_grows env parts hresolve h⟩
  | block literal =>
    exact ⟨_, _, block_grows env literal
      (fun hs => sequence_grows env literal.body (fun _ => rfl) hs) h⟩
  | statements ss => exact ⟨_, _, statements_grows env ss hresolve h⟩

theorem Task.Completes.fault (h : t.Completes env s) : s.current.draft.fault = none := by
  obtain ⟨s', hrun, hf⟩ := h
  have hresolve (name : String) : s.scopes.resolve name = s.scopes.resolve name := rfl
  obtain ⟨p, literals, hgrows⟩ := Task.grows hresolve hrun
  exact hgrows.fault hf

/-- A construct is completed if what is compiled after it can be. -/
theorem Task.Completes.before (h : t'.Completes env s') (hrun : t.run env s = .ok () s') :
    t.Completes env s :=
  ⟨s', hrun, h.fault⟩

theorem Task.completes_value {e : Expr} {span : Span}
    (h : asValue env span (receiver env e) s = .ok () s') (hf : s'.current.draft.fault = none) :
    (Task.expression e).Completes env s :=
  ⟨s', run_expression.2 (asValue_ok env h), hf⟩

theorem inRegion_within {wanted : Bool} {span : Span} {action : Compile Unit}
    (h : inRegion env wanted span action s = .ok () s') (hf : s'.current.draft.fault = none) :
    ∃ s₁, action (s.within wanted span) = .ok () s₁ ∧ s₁.current.draft.fault = none := by
  cases wanted with
  | false => exact ⟨s', h, hf⟩
  | true =>
    obtain ⟨⟨⟩, opened, hopen, h⟩ := bind_ok h
    cases hopen
    obtain ⟨⟨⟩, s₁, haction, hclose⟩ := bind_ok h
    obtain ⟨region, rest, -, rfl⟩ := closeRegion_ok env hclose
    exact ⟨s₁, haction, Draft.fault_closeRegion env hf⟩

theorem statementWith_opened {isLast : Bool} {span : Span} {action : Compile Unit}
    (h : statementWith env isLast span action s = .ok () s') (hf : s'.current.draft.fault = none) :
    ∃ s₁, action (s.opened span) = .ok () s₁ ∧ s₁.current.draft.fault = none := by
  obtain ⟨closed, hregion, rfl⟩ := statementWith_ok env h
  exact inRegion_within hregion (Draft.fault_run hf)

/-- The receiver of a message, then the message. -/
theorem Task.Completes.send {target : Expr} {m : Message} {span : Span}
    (h : (Task.expression (.send target m span)).Completes env s) :
    ∃ r s₁, receiver env target (s.within m.isKeyword span) = .ok r s₁ ∧
      (Task.message r m).Completes env s₁ := by
  obtain ⟨s', hrun, hf⟩ := h
  obtain ⟨r', hr'⟩ := run_expression.1 hrun
  obtain ⟨⟨⟩, s', hregion, hreturn⟩ := bind_ok hr'
  cases hreturn
  obtain ⟨s₂, haction, hf⟩ := inRegion_within hregion hf
  obtain ⟨r, s₁, htarget, hmessage⟩ := bind_ok haction
  exact ⟨r, s₁, htarget, s₂, hmessage, hf⟩

/-- The receiver of a cascade, then its messages. -/
theorem Task.Completes.cascade {target : Expr} {messages : List Message} {span : Span}
    (h : (Task.expression (.cascade target messages span)).Completes env s) :
    ∃ r s₁, receiver env target s = .ok r s₁ ∧ (Task.cascade r messages).Completes env s₁ := by
  obtain ⟨s', hrun, hf⟩ := h
  obtain ⟨r', hr'⟩ := run_expression.1 hrun
  obtain ⟨-, -, r, s₁, htarget, hcascade⟩ := receiver_cascade_ok env hr'
  exact ⟨r, s₁, htarget, s', hcascade, hf⟩

theorem Task.Completes.assign {target : Ident} {value : Expr} {span : Span}
    (h : (Task.expression (.assign target value span)).Completes env s) :
    (Task.expression value).Completes env s := by
  obtain ⟨s', hrun, hf⟩ := h
  obtain ⟨r, hr⟩ := run_expression.1 hrun
  obtain ⟨-, slot, s₁, -, hvalue, rfl⟩ := receiver_assign_ok env hr
  exact completes_value hvalue (Draft.fault_run hf)

theorem Task.Completes.paren {inner : Expr} {span : Span}
    (h : (Task.expression (.paren inner span)).Completes env s) :
    (Task.expression inner).Completes env s := by
  obtain ⟨s', hrun, hf⟩ := h
  obtain ⟨r, hr⟩ := run_expression.1 hrun
  exact completes_value (receiver_paren_ok env hr).2 hf

theorem Task.Completes.literal {parameters : List Ident} {body : Sequence} {span : Span}
    (h : (Task.expression (.block parameters body span)).Completes env s) :
    (Task.block ⟨.value, parameters, body, span⟩).Completes env s := by
  obtain ⟨s', hrun, hf⟩ := h
  obtain ⟨r, hr⟩ := run_expression.1 hrun
  obtain ⟨⟨⟩, s₁, hblock, hrest⟩ := bind_ok hr
  cases hrest
  exact ⟨s', hblock, hf⟩

theorem Task.Completes.operand {r : Receiver} {selector : Ident} {argument : Expr} {span : Span}
    (h : (Task.message r (.binary selector argument span)).Completes env s) :
    (Task.expression argument).Completes env s := by
  obtain ⟨s', hrun, hf⟩ := h
  obtain ⟨-, s₁, hargument, rfl⟩ := message_binary_ok env hrun
  exact completes_value hargument (Draft.fault_run hf)

theorem Task.Completes.keyword {r : Receiver} (hr : r ≠ .escape) {parts : List KeywordPart}
    {span : Span} (h : (Task.message r (.keyword parts span)).Completes env s)
    (hopen : openSend span s = .ok () s') : (Task.arguments true parts).Completes env s' := by
  obtain ⟨s₁, hrun, hf⟩ := h
  obtain ⟨s₂, s₃, hopened, harguments, rfl⟩ := message_keyword_ok env hr hrun
  cases hopen.symm.trans hopened
  exact ⟨s₃, harguments, Draft.fault_run hf⟩

theorem Task.Completes.lastMessage {r : Receiver} (hr : r ≠ .escape) {m : Message}
    (h : (Task.cascade r [m]).Completes env s) :
    (Task.message r m).Completes env (s.within m.isKeyword m.span) := by
  obtain ⟨s', hrun, hf⟩ := h
  rw [run, Compile.cascade, if_neg hr] at hrun
  obtain ⟨⟨⟩, s₁, hregion, hrest⟩ := bind_ok hrun
  cases hrest
  exact inRegion_within hregion hf

/-- The receiver is copied, and the value of the message dropped before the others are sent. -/
theorem Task.Completes.nextMessage {r : Receiver} (hr : r ≠ .escape) {m next : Message}
    {rest : List Message} (h : (Task.cascade r (m :: next :: rest)).Completes env s)
    (hdup : emit (.plain .dup) s = .ok () s') :
    ∃ s₂ s₃, inRegion env m.isKeyword m.span (Compile.message env r m) s' = .ok () s₂ ∧
      emit .discard s₂ = .ok () s₃ ∧ (Task.cascade r (next :: rest)).Completes env s₃ := by
  obtain ⟨s₁, hrun, hf⟩ := h
  rw [run, Compile.cascade, if_neg hr] at hrun
  obtain ⟨⟨⟩, s', hemit, hrun⟩ := bind_ok hrun
  cases hdup.symm.trans hemit
  obtain ⟨⟨⟩, s₂, hregion, hrun⟩ := bind_ok hrun
  obtain ⟨⟨⟩, s₃, hdiscard, hrun⟩ := bind_ok hrun
  exact ⟨s₂, s₃, hregion, hdiscard, s₁, hrun, hf⟩

theorem Task.Completes.discarded (h : t.Completes env s') (hdiscard : emit .discard s = .ok () s') :
    s.current.draft.fault = none := by
  have hf := h.fault
  cases hdiscard
  exact Draft.fault_step hf

/-- An argument, then the others. -/
theorem Task.Completes.argument {first : Bool} {part : KeywordPart} {rest : List KeywordPart}
    (h : (Task.arguments first (part :: rest)).Completes env s)
    (hnote : notePart first part s = .ok () s') :
    ∃ s₂, (part.task env).run env s' = .ok () s₂ ∧
      (Task.arguments false rest).Completes env s₂ := by
  obtain ⟨s₁, hrun, hf⟩ := h
  obtain ⟨keyword, argument⟩ := part
  rw [run, Compile.arguments] at hrun
  obtain ⟨⟨⟩, s₂, hnoted, hrun⟩ := bind_ok hrun
  cases hnote.symm.trans hnoted
  cases argument with
  | block parameters body span =>
    obtain ⟨⟨⟩, s₂, hblock, hrest⟩ := bind_ok hrun
    exact ⟨s₂, hblock, s₁, hrest, hf⟩
  | _ =>
    obtain ⟨⟨⟩, s₂, hvalue, hrest⟩ := bind_ok hrun
    exact ⟨s₂, run_expression.2 (asValue_ok env hvalue), s₁, hrest, hf⟩

/-- A statement, then the others. Only the last one can be an answer. -/
theorem Task.Completes.statements {first : Statement} {rest : List Statement}
    (h : (Task.statements (first :: rest)).Completes env s) :
    (first.isAnswer = true → rest = []) ∧
      ∃ s₁, Compile.statement env rest.isEmpty first s = .ok () s₁ ∧
        (Task.statements rest).Completes env s₁ := by
  obtain ⟨s', hrun, hf⟩ := h
  obtain ⟨hlast, s₁, hstatement, hrest⟩ := statements_cons_ok env hrun
  exact ⟨hlast, s₁, hstatement, s', hrest, hf⟩

theorem Task.Completes.statement {value : Expr} {rest : List Statement}
    (h : (Task.statements (.expression value :: rest)).Completes env s) :
    (Task.expression value).Completes env (s.opened value.span) := by
  obtain ⟨-, s₁, hstatement, hrest⟩ := h.statements
  obtain ⟨s₂, haction, hf⟩ := statementWith_opened hstatement hrest.fault
  exact completes_value haction hf

theorem Task.Completes.answer {value : Expr} {span : Span} {rest : List Statement}
    (h : (Task.statements (.answer value span :: rest)).Completes env s)
    (hopen : (do openRegion span; openLine span : Compile Unit) s = .ok () s') :
    (Task.expression value).Completes env s' := by
  obtain ⟨-, s₁, hstatement, hrest⟩ := h.statements
  obtain ⟨s₂, haction, hf⟩ := statementWith_opened hstatement hrest.fault
  obtain ⟨⟨⟩, s₃, hline, haction⟩ := bind_ok haction
  obtain ⟨⟨⟩, s₄, hvalue, hreturn⟩ := bind_ok haction
  cases hopen
  cases hline
  cases hreturn
  exact completes_value hvalue (Draft.fault_step hf)

theorem sequence_opens {locals : List VerificationType} (hframe : env.Frame locals)
    {body : Sequence} {parameters : List Ident} (hbody : body.statements ≠ [])
    (hat : s.current.draft.At ⟨[], locals⟩) {top : Scope} {rest : List Scope}
    (hscopes : s.scopes = ⟨top :: rest⟩) (htop : top.Declares parameters [])
    {whenEmpty : Compile Unit} {s₁ : State} (h : sequence env whenEmpty body s = .ok () s₁)
    (hf : s₁.current.draft.fault = none)
    (hdeclare : declareTemporaries env body.temporaries s = .ok () s') :
    body.Opens env parameters locals s' := by
  obtain ⟨temporaries, ss, span⟩ := body
  obtain ⟨⟨⟩, s₂, hdeclared, h⟩ := bind_ok h
  cases hdeclare.symm.trans hdeclared
  obtain ⟨top', hdeclares, hs'⟩ := declareTemporaries_ok env hscopes htop hdeclare
  cases ss with
  | nil => exact absurd rfl hbody
  | cons first others =>
    obtain ⟨⟨⟩, s₃, hstatements, h⟩ := bind_ok h
    cases h
    have hcompletes : (Task.statements (first :: others)).Completes env s' :=
      ⟨s₃, hstatements, Draft.fault_step hf⟩
    have hdeclarations := hcompletes.fault
    rw [hs'] at hdeclarations
    obtain ⟨hread, -⟩ := readable_of_runOperations
      (fun op hop => (Operation.standard_declarations env temporaries op hop).ne_areturn)
      hat.reachable hdeclarations
    have hmoves : (Code.operations _).Moves env env.Typed locals [] [] :=
      .operations (Operation.turnAll_declarations hframe [] hread)
    refine ⟨fun name => ?_, ?_, hcompletes⟩
    · rw [hs']
      exact hdeclares.resolve_eq name
    · rw [hs']
      exact (hmoves _ hat).1

theorem fault_of_leaveMethod {span : Span} {b : MethodBody} (h : leaveMethod span s = .ok b s') :
    s.current.draft.fault = none := by
  cases hsuspended : s.suspended with
  | nil => simp [leaveMethod, hsuspended] at h
  | cons outer rest => exact (Draft.finishes_of_finish (leaveMethod_ok h hsuspended).1).fault

/-- The statements of a block are compiled in a method of their own. -/
theorem Task.Completes.body {literal : BlockLiteral} (hbody : literal.body.statements ≠ [])
    (h : (Task.block literal).Completes env s)
    (hentered : (do
        let _ ← nameBlock
        enterMethod (env.method env.blockLocals)
        pushScope
        literal.parameters.forM (declare .argument)
        declareTemporaries env literal.body.temporaries : Compile Unit) s = .ok () s') :
    literal.body.Opens env literal.parameters env.blockLocals s' := by
  obtain ⟨s₁, hrun, -⟩ := h
  obtain ⟨name, s₂, hname, hrun⟩ := bind_ok hrun
  obtain ⟨⟨⟩, s₃, henter, hrun⟩ := bind_ok hrun
  obtain ⟨⟨⟩, s₄, hpush, hrun⟩ := bind_ok hrun
  obtain ⟨⟨⟩, s₅, hdeclare, hrun⟩ := bind_ok hrun
  obtain ⟨⟨⟩, s₆, hsequence, hrun⟩ := bind_ok hrun
  obtain ⟨⟨⟩, s₇, hpop, hrun⟩ := bind_ok hrun
  obtain ⟨b, s₈, hleave, -⟩ := bind_ok hrun
  have htemporaries : declareTemporaries env literal.body.temporaries s₅ = .ok () s' :=
    ((bind_of_ok hname _).trans ((bind_of_ok henter _).trans ((bind_of_ok hpush _).trans
      (bind_of_ok hdeclare _)))).symm.trans hentered
  cases henter
  cases hpush
  cases hpop
  obtain ⟨scope, hdeclares, hs₅⟩ := declareAll_ok (D := fun ps top => top.Declares ps [])
    (fun hd hc => hd.argument hc) hdeclare rfl Scope.declares_empty
  have hfault : s₆.current.draft.fault = none :=
    fault_of_leaveMethod (s := { s₆ with scopes := s₆.scopes.pop }) hleave
  have hscopes : s₅.scopes = ⟨scope :: s₂.scopes.scopes⟩ := by rw [hs₅]
  have hat : s₅.current.draft.At ⟨[], env.blockLocals⟩ := by
    rw [hs₅]
    exact ⟨rfl, rfl, rfl, rfl⟩
  exact sequence_opens env.frame_block hbody hat hscopes hdeclares hsequence hfault htemporaries

theorem generate_opens {script : Script} {g : Generated} (h : generate env script = .ok g)
    (hbody : script.body.statements ≠ [])
    (hstart : (do pushScope; declareTemporaries env script.body.temporaries : Compile Unit)
      (State.initial env) = .ok () s) : script.body.Opens env [] env.scriptLocals s := by
  obtain ⟨s₁, b, hsequence, hfinish, -⟩ := generate_ok env h
  exact sequence_opens env.frame_script hbody ⟨rfl, rfl, rfl, rfl⟩ rfl Scope.declares_empty
    hsequence (Draft.finishes_of_finish hfinish).fault hstart

/-- What a construct that can be completed has compiled can be completed. -/
theorem Task.Calls.completes (hcall : t.Calls env s t' s') (ht : t.directs = false)
    (h : t.Completes env s) : t'.Completes env s' := by
  cases hcall with
  | target =>
    obtain ⟨r, s₁, hr, hmessage⟩ := h.send
    exact hmessage.before (run_expression.2 ⟨r, hr⟩)
  | sent hr =>
    obtain ⟨r, s₁, hr', hmessage⟩ := h.send
    cases hr.symm.trans hr'
    exact hmessage
  | cascadeTarget =>
    obtain ⟨r, s₁, hr, hmessages⟩ := h.cascade
    exact hmessages.before (run_expression.2 ⟨r, hr⟩)
  | cascaded hr =>
    obtain ⟨r, s₁, hr', hmessages⟩ := h.cascade
    cases hr.symm.trans hr'
    exact hmessages
  | assigned => exact h.assign
  | inner => exact h.paren
  | literal => exact h.literal
  | operand => exact h.operand
  | arguments hopen => exact h.keyword (by rintro rfl; cases ht) hopen
  | lastMessage => exact h.lastMessage (by rintro rfl; cases ht)
  | nextMessage hdup =>
    obtain ⟨s₂, s₃, hregion, hdiscard, hothers⟩ := h.nextMessage (by rintro rfl; cases ht) hdup
    exact inRegion_within hregion (hothers.discarded hdiscard)
  | otherMessages hdup hmessage hdiscard =>
    obtain ⟨s₂, s₃, hmessage', hdiscard', hothers⟩ := h.nextMessage (by rintro rfl; cases ht) hdup
    cases hmessage.symm.trans hmessage'
    cases hdiscard.symm.trans hdiscard'
    exact hothers
  | argument hnote =>
    obtain ⟨s₂, hpart, hrest⟩ := h.argument hnote
    exact hrest.before hpart
  | otherArguments hnote hpart =>
    obtain ⟨s₂, hpart', hrest⟩ := h.argument hnote
    cases hpart.symm.trans hpart'
    exact hrest
  | body hbody hentered => exact (h.body hbody hentered).completes
  | statement hopen =>
    cases hopen
    exact h.statement
  | answer hopen => exact h.answer hopen
  | otherStatements hfirst =>
    obtain ⟨-, s₁, hfirst', hrest⟩ := h.statements
    cases hfirst.symm.trans hfirst'
    exact hrest

end

/-- What a construct finds on the stack, above the values that it leaves alone. -/
def Task.operands : Task → List VerificationType
  | message .. | cascade .. => [env.value]
  | _ => []

/-- What a construct leaves in the place of its operands. -/
def Task.results : Task → List VerificationType
  | arguments _ parts => List.replicate parts.length env.value
  | statements _ => []
  | _ => [env.value]

def Task.Free (resolve : String → Resolution) : Task → Prop
  | expression e => env.Free resolve e.references (e.blocks env)
  | message r m => r ≠ .escape ∧ env.Free resolve m.references (m.blocks env)
  | cascade r messages =>
    r ≠ .escape ∧ env.Free resolve (messageReferences messages) (messageBlocks env messages)
  | arguments _ parts => env.Free resolve (argumentReferences parts) (argumentBlocks env parts)
  | block literal => env.Free resolve [] (literal.body.blocks env ++ [literal])
  | statements ss => env.Free resolve (ss.flatMap Statement.references) (statementBlocks env ss)

/-- A construct is compiled from a state with the given resolution of names and the given types, and
can be completed. -/
structure Task.Live (resolve : String → Resolution) (locals stack : List VerificationType)
    (t : Task) (s : State) : Prop where
  resolves : ∀ name, s.scopes.resolve name = resolve name
  free : t.Free env resolve
  types : s.current.draft.At ⟨t.operands env ++ stack, locals⟩
  completes : ∃ s', t.run env s = .ok () s' ∧ s'.current.draft.fault = none

section

variable {env} {t t' : Task} {s s' : State} {resolve : String → Resolution}
  {locals stack : List VerificationType}

theorem Task.Free.directs (h : t.Free env resolve) : t.directs = false := by
  cases t with
  | message r m =>
    cases r with
    | escape => exact absurd rfl h.1
    | _ => rfl
  | cascade r messages =>
    cases r with
    | escape => exact absurd rfl h.1
    | _ => rfl
  | _ => rfl

/-- Other than statements, constructs leave their results on the stack. -/
theorem Task.at_run (hs : env.Speaks) (hframe : env.Frame locals)
    (hresolve : ∀ name, s.scopes.resolve name = resolve name) (hfree : t.Free env resolve)
    (hat : s.current.draft.At ⟨t.operands env ++ stack, locals⟩) (h : t.run env s = .ok () s')
    (hf : s'.current.draft.fault = none) (ht : ∀ ss, t ≠ .statements ss) :
    s'.current.draft.At ⟨t.results env ++ stack, locals⟩ := by
  cases t with
  | expression e =>
    obtain ⟨r, hr⟩ := run_expression.1 h
    exact receiver_at hs hframe hresolve hfree.1 hat hr hf
  | message r m => exact message_at hs hframe hresolve hfree.2.1 hfree.1 hat h hf
  | cascade r messages => exact cascade_at hs hframe hresolve hfree.2.1 hfree.1 hat h hf
  | arguments first parts => exact arguments_at hs hframe hresolve hfree.1 hat h hf
  | block literal => exact block_at hframe hat h hf
  | statements ss => exact absurd rfl (ht ss)

theorem State.within_scopes (s : State) (wanted : Bool) (span : Span) :
    (s.within wanted span).scopes = s.scopes := by
  cases wanted <;> rfl

theorem State.at_within {f : Flow} (h : s.current.draft.At f) (wanted : Bool) (span : Span) :
    (s.within wanted span).current.draft.At f := by
  cases wanted with
  | false => exact h
  | true => exact h.openRegion

/-- A construct compiled after another finds the results of that one. -/
theorem Task.Live.next (hs : env.Speaks) (hframe : env.Frame locals)
    (h : t.Live env resolve locals stack s) (ht : ∀ ss, t ≠ .statements ss)
    (hrun : t.run env s = .ok () s') (hcompletes : t'.Completes env s')
    (hfree : t'.Free env resolve) {stack' : List VerificationType}
    (hstack : t.results env ++ stack = t'.operands env ++ stack') :
    t'.Live env resolve locals stack' s' := by
  obtain ⟨p, literals, hgrows⟩ := Task.grows h.resolves hrun
  have hat := Task.at_run hs hframe h.resolves h.free h.types hrun hcompletes.fault ht
  rw [hstack] at hat
  exact ⟨fun name => by rw [hgrows.1, h.resolves], hfree, hat, hcompletes⟩

/-- The receiver of a message is not the escape identifier. -/
theorem Task.Live.receiver_ne_escape {target : Expr}
    (h : (Task.expression target).Live env resolve locals stack s) {r : Receiver}
    (hr : receiver env target s = .ok r s') : r ≠ .escape := by
  rw [(receiver_grows env target h.resolves hr).1]
  exact asReceiver_ne_escape h.free.1

theorem KeywordPart.task_types (part : KeywordPart) (stack : List VerificationType) :
    (part.task env).operands env ++ stack = stack ∧
      (part.task env).results env ++ stack = env.value :: stack := by
  obtain ⟨keyword, argument⟩ := part
  cases argument <;> exact ⟨rfl, rfl⟩

theorem KeywordPart.task_ne_statements (part : KeywordPart) (ss : List Statement) :
    part.task env ≠ .statements ss := by
  obtain ⟨keyword, argument⟩ := part
  cases argument <;> simp [KeywordPart.task]

theorem Task.Live.argument {first : Bool} {part : KeywordPart} {rest : List KeywordPart}
    (h : (Task.arguments first (part :: rest)).Live env resolve locals stack s)
    (hnote : notePart first part s = .ok () s') (hcompletes : (part.task env).Completes env s') :
    (part.task env).Live env resolve locals stack s' ∧
      (Task.arguments false rest).Free env resolve := by
  obtain ⟨hresolve, hfree, hat, -⟩ := h
  have hfrees : (part.task env).Free env resolve ∧
      (Task.arguments false rest).Free env resolve := by
    obtain ⟨keyword, argument⟩ := part
    cases argument <;> exact ⟨hfree.left, hfree.right⟩
  obtain ⟨pending, rfl⟩ := notePart_ok hnote
  exact ⟨⟨hresolve, hfrees.1, by rw [(part.task_types stack).1]; exact hat, hcompletes⟩, hfrees.2⟩

/-- The message before the others of a cascade, with a copy of the receiver. -/
theorem Task.Live.nextMessage {r : Receiver} {m next : Message} {rest : List Message}
    (h : (Task.cascade r (m :: next :: rest)).Live env resolve locals stack s)
    (hdup : emit (.plain .dup) s = .ok () s') :
    (∀ name, s'.scopes.resolve name = resolve name) ∧
      s'.current.draft.At ⟨env.value :: env.value :: stack, locals⟩ := by
  have hturn : Operation.dup.Turns env.Typed locals _ _ := Operation.turns_dup stack env.value
  cases hdup
  exact ⟨h.resolves, hturn.at_step h.types⟩

theorem Task.Live.otherMessages (hs : env.Speaks) (hframe : env.Frame locals) {r : Receiver}
    {m next : Message} {rest : List Message}
    (h : (Task.cascade r (m :: next :: rest)).Live env resolve locals stack s) {s₁ s₂ : State}
    (hdup : emit (.plain .dup) s = .ok () s₁)
    (hmessage : inRegion env m.isKeyword m.span (Compile.message env r m) s₁ = .ok () s₂)
    (hdiscard : emit .discard s₂ = .ok () s')
    (hcompletes : (Task.cascade r (next :: rest)).Completes env s') :
    (Task.cascade r (next :: rest)).Live env resolve locals stack s' := by
  obtain ⟨hr, hfree⟩ := h.free
  obtain ⟨hresolve, hcopied⟩ := h.nextMessage hdup
  have hgrows : Grows env s₁ s₂ (.region m.isKeyword m.span (m.plan env resolve r))
      (m.blocks env) :=
    inRegion_grows env
      (fun _ _ hscopes h => message_grows env m (fun name => by rw [hscopes, hresolve]) h) hmessage
  have hsent := hgrows.at
    (fun names k => ((m.plan_fits env names hs.plain hr hfree.left.1 k).region _ _).standard)
    (fun names k hread => Plan.region_moves hs _ _
      (m.plan_moves hframe hs hr hfree.left.1 k (Code.all_region names hread) _)) hcopied
    (hcompletes.discarded hdiscard)
  have hdrop : Operation.discard.Turns env.Typed locals _ _ :=
    Operation.turns_discard (env.value :: stack) (t := env.value) rfl
  cases hdiscard
  exact ⟨fun name => by rw [← hresolve, ← hgrows.1], ⟨hr, hfree.right⟩, hdrop.at_step hsent,
    hcompletes⟩

theorem Sequence.Opens.live {body : Sequence} {parameters : List Ident}
    (h : body.Opens env parameters locals s) (hfree : body.EscapeFree env parameters)
    (hblocks : ∀ literal ∈ body.blocks env, literal.body.EscapeFree env literal.parameters) :
    (Task.statements body.statements).Live env (lookup parameters body.temporaries) locals []
      s := by
  obtain ⟨temporaries, ss, span⟩ := body
  exact ⟨h.resolves, ⟨hfree, hblocks⟩, h.types, h.completes⟩

theorem Task.Live.otherStatements (hs : env.Speaks) (hframe : env.Frame locals)
    {first next : Statement} {rest : List Statement}
    (h : (Task.statements (first :: next :: rest)).Live env resolve locals stack s)
    (hfirst : Compile.statement env false first s = .ok () s')
    (hcompletes : (Task.statements (next :: rest)).Completes env s') :
    (Task.statements (next :: rest)).Live env resolve locals stack s' := by
  obtain ⟨hresolve, hfree, hat, hrun⟩ := h
  refine ⟨fun name => ?_, hfree.right, ?_, hcompletes⟩
  · rw [(statement_grows env first hresolve hfirst).1, hresolve]
  · cases first with
    | expression value =>
      exact statement_at hs hframe hresolve hfree.left.1 hat hfirst hcompletes.fault
    | answer value span => cases (Completes.statements hrun).1 rfl

end

/-- From every state on the way through a construct that can be completed, the next one can be. -/
theorem Task.Calls.live (hs : env.Speaks) {t t' : Task} {s s' : State} (hcall : t.Calls env s t' s')
    (h : ∃ resolve locals stack, env.Frame locals ∧ t.Live env resolve locals stack s) :
    ∃ resolve locals stack, env.Frame locals ∧ t'.Live env resolve locals stack s' := by
  obtain ⟨resolve, locals, stack, hframe, h⟩ := h
  have hcompletes := hcall.completes h.free.directs h.completes
  obtain ⟨hresolve, hfree, hat, hrun⟩ := h
  have hwithin (wanted : Bool) (span : Span) (name : String) :
      (s.within wanted span).scopes.resolve name = resolve name := by
    rw [s.within_scopes, hresolve]
  cases hcall with
  | target =>
    exact ⟨_, _, _, hframe, hwithin _ _, hfree.left, State.at_within hat _ _, hcompletes⟩
  | @sent target m span r _ _ hr =>
    have hran := run_expression.2 ⟨r, hr⟩
    have htarget : (Task.expression target).Live env resolve locals stack _ :=
      ⟨hwithin _ _, hfree.left, State.at_within hat _ _, hcompletes.before hran⟩
    exact ⟨_, _, _, hframe, htarget.next hs hframe (by simp) hran hcompletes
      ⟨htarget.receiver_ne_escape hr, hfree.right⟩ rfl⟩
  | cascadeTarget => exact ⟨_, _, _, hframe, hresolve, hfree.left, hat, hcompletes⟩
  | @cascaded target messages span r _ _ hr =>
    have hran := run_expression.2 ⟨r, hr⟩
    have htarget : (Task.expression target).Live env resolve locals stack s :=
      ⟨hresolve, hfree.left, hat, hcompletes.before hran⟩
    exact ⟨_, _, _, hframe, htarget.next hs hframe (by simp) hran hcompletes
      ⟨htarget.receiver_ne_escape hr, hfree.right⟩ rfl⟩
  | assigned | inner | literal => exact ⟨_, _, _, hframe, hresolve, hfree, hat, hcompletes⟩
  | operand => exact ⟨_, _, env.value :: stack, hframe, hresolve, hfree.2, hat, hcompletes⟩
  | arguments hopen =>
    cases hopen
    exact ⟨_, _, env.value :: stack, hframe, hresolve, hfree.2, hat, hcompletes⟩
  | lastMessage =>
    exact ⟨_, _, _, hframe, hwithin _ _, ⟨hfree.1, hfree.2.left⟩, State.at_within hat _ _,
      hcompletes⟩
  | nextMessage hdup =>
    obtain ⟨hresolve, hcopied⟩ := Live.nextMessage ⟨hresolve, hfree, hat, hrun⟩ hdup
    exact ⟨_, _, env.value :: stack, hframe, fun name => by rw [State.within_scopes, hresolve],
      ⟨hfree.1, hfree.2.left⟩, State.at_within hcopied _ _, hcompletes⟩
  | otherMessages hdup hmessage hdiscard =>
    exact ⟨_, _, _, hframe, Live.otherMessages hs hframe ⟨hresolve, hfree, hat, hrun⟩ hdup hmessage
      hdiscard hcompletes⟩
  | argument hnote =>
    exact ⟨_, _, _, hframe, (Live.argument ⟨hresolve, hfree, hat, hrun⟩ hnote hcompletes).1⟩
  | @otherArguments _ part _ _ _ _ hnote hpart =>
    obtain ⟨hlive, hrest⟩ := Live.argument ⟨hresolve, hfree, hat, hrun⟩ hnote
      (hcompletes.before hpart)
    exact ⟨_, _, _, hframe, hlive.next hs hframe part.task_ne_statements hpart hcompletes hrest
      (part.task_types stack).2⟩
  | body hbody hentered =>
    obtain ⟨hblocks, hliteral⟩ := List.forall_mem_append.1 hfree.2
    exact ⟨_, _, _, env.frame_block,
      (Completes.body hbody hrun hentered).live (hliteral _ (.head _)) hblocks⟩
  | statement hopen =>
    cases hopen
    exact ⟨_, _, _, hframe, hresolve, hfree.left, hat.openRegion, hcompletes⟩
  | @answer value span rest _ _ hopen =>
    have hturn : (Operation.line span.line).Turns env.Typed locals stack stack :=
      Operation.turns_line stack span.line
    cases hopen
    exact ⟨_, _, _, hframe, hresolve, hfree.left, hturn.at_step hat.openRegion, hcompletes⟩
  | otherStatements hfirst =>
    exact ⟨_, _, _, hframe, Live.otherStatements hs hframe ⟨hresolve, hfree, hat, hrun⟩ hfirst
      hcompletes⟩

variable {env} {script : Script} {g : Generated}

/-- All of a script that compiles can be completed. -/
theorem Script.Reaches.live (hs : env.Speaks) (hfree : script.EscapeFree env)
    (h : generate env script = .ok g) {t : Task} {s : State} (hreach : script.Reaches env t s) :
    ∃ resolve locals stack, env.Frame locals ∧ t.Live env resolve locals stack s := by
  induction hreach with
  | start hbody hstart =>
    exact ⟨_, _, _, env.frame_script, (generate_opens h hbody hstart).live hfree.1 hfree.2⟩
  | call _ hcall ih => exact hcall.live env hs ih

/-- Wherever a construct is compiled, it leaves its results in the place of its operands, and
control goes on from it. -/
theorem Script.Reaches.leaves (hs : env.Speaks) (hfree : script.EscapeFree env)
    (h : generate env script = .ok g) {t : Task} {s : State} (hreach : script.Reaches env t s)
    (ht : ∀ ss, t ≠ .statements ss) :
    ∃ s' stack, t.run env s = .ok () s' ∧
      s.current.draft.stack.entries = t.operands env ++ stack ∧
      s'.current.draft.stack.entries = t.results env ++ stack ∧
      s'.current.draft.reachable = true := by
  obtain ⟨resolve, locals, stack, hframe, hresolve, hconstruct, hat, s', hrun, hf⟩ :=
    hreach.live hs hfree h
  have hat' := Task.at_run hs hframe hresolve hconstruct hat hrun hf ht
  exact ⟨s', stack, hrun, congrArg Flow.stack hat.flow, congrArg Flow.stack hat'.flow,
    hat'.reachable⟩

end SmalltalkJvm
