import SmalltalkJvm.Proofs.LineErasure
import SmalltalkJvm.Proofs.References
import SmalltalkJvm.Proofs.Visits

/-! # The stack between constructs

From which states the constructs of any script are compiled, those with directives included, and
what the operand stack holds there: nothing where a statement starts, and references only before and
after every expression, message, block and directive. So nothing that takes two slots is ever
dropped, and what the methods of a script return are references.
-/

namespace SmalltalkJvm

open Compile

section

variable (env : Env)

/-- Compiling a construct from a state has another compiled, from a state on the way. A directive
has nothing else compiled, and the directives of a cascade stand next to each other. -/
inductive Task.Leads : Task → State → Task → State → Prop where
  | call {t t' : Task} {s s' : State} (ht : t.directs = false) (h : t.Calls env s t' s') :
      Leads t s t' s'
  | directive {m : Message} {rest : List Message} {s : State} :
      Leads (.cascade .escape (m :: rest)) s (.message .escape m) s
  | otherDirectives {m : Message} {rest : List Message} {s s' : State}
      (h : Compile.message env .escape m s = .ok () s') :
      Leads (.cascade .escape (m :: rest)) s (.cascade .escape rest) s'

/-- A construct is compiled from a state while a script is, whatever directives it has. -/
inductive Script.Visits (script : Script) : Task → State → Prop where
  | start {s : State} (hbody : script.body.statements ≠ [])
      (h : (do pushScope; declareTemporaries env script.body.temporaries : Compile Unit)
        (State.initial env) = .ok () s) :
      Visits script (.statements script.body.statements) s
  | lead {t t' : Task} {s s' : State} (h : Visits script t s) (hleads : t.Leads env s t' s') :
      Visits script t' s'

/-- A construct is compiled from a state with references only on the stack, statements with nothing
there, and can be completed. -/
structure Task.Ready (t : Task) (s : State) : Prop where
  references : s.current.draft.Referential 0
  empty : ∀ ss, t = .statements ss → s.current.draft.stack.entries = []
  completes : ∃ s', t.run env s = .ok () s' ∧ s'.current.draft.fault = none

end

section

variable {env : Env} {t t' : Task} {s s' : State}

theorem Grows.referential {p : Plan} {literals literals' : List BlockLiteral}
    (h : Grows env s s' p literals) (hp : Carried env p literals')
    (hs : s.current.draft.Referential 0) (hf : s'.current.draft.fault = none) :
    s'.current.draft.Referential 0 := by
  obtain ⟨-, methods, files, hemits⟩ := h
  obtain ⟨names, hnames⟩ := exists_agree s.blocks.size methods
  have hdraft := hemits.draft names hnames
  rw [hdraft] at hf ⊢
  exact (hp.code _ _ _ hs hf).1

/-- Constructs other than statements leave references only. -/
theorem Task.referential_run (ht : ∀ ss, t ≠ .statements ss) (hs : s.current.draft.Referential 0)
    (h : t.run env s = .ok () s') (hf : s'.current.draft.fault = none) :
    s'.current.draft.Referential 0 := by
  have hresolve (name : String) : s.scopes.resolve name = s.scopes.resolve name := rfl
  cases t with
  | expression e =>
    obtain ⟨r, hr⟩ := run_expression.1 h
    exact (receiver_grows env e hresolve hr).2.referential (e.carried ⟨s, r, s', hresolve, hr⟩) hs
      hf
  | message r m =>
    exact (message_grows env m hresolve h).referential (m.carried ⟨s, s', hresolve, h⟩) hs hf
  | cascade r messages =>
    exact (cascade_grows env messages hresolve h).referential
      (cascade_carried messages (State.Resolves.cascade hresolve h)) hs hf
  | arguments first parts =>
    exact (arguments_grows env parts hresolve h).referential
      (arguments_carried parts (State.Resolves.arguments hresolve h)) hs hf
  | block literal =>
    obtain ⟨hbody, hblocks⟩ := literal.body.carried (block_compiles h)
    exact (block_grows env literal (fun hs => sequence_grows env literal.body (fun _ => rfl) hs)
      h).referential (carried_block literal hblocks hbody) hs hf
  | statements ss => exact absurd rfl (ht ss)

/-- What is not a list of statements needs no empty stack. -/
theorem Task.Completes.ready (h : t.Completes env s) (ht : ∀ ss, t ≠ .statements ss)
    (hs : s.current.draft.Referential 0) : t.Ready env s :=
  ⟨hs, fun ss heq => absurd heq (ht ss), h⟩

/-- A construct after another one. -/
theorem Task.Completes.ready_next (h : t'.Completes env s') (ht : ∀ ss, t ≠ .statements ss)
    (ht' : ∀ ss, t' ≠ .statements ss) (hs : s.current.draft.Referential 0)
    (hrun : t.run env s = .ok () s') : t'.Ready env s' :=
  h.ready ht' (Task.referential_run ht hs hrun h.fault)

theorem State.referential_within (hs : s.current.draft.Referential 0) (wanted : Bool)
    (span : Span) : (s.within wanted span).current.draft.Referential 0 := by
  cases wanted with
  | false => exact hs
  | true => exact Code.referential_openRegion hs

/-- The copy of a receiver is a reference too. -/
theorem referential_copied (hs : s.current.draft.Referential 0)
    (hdup : emit (.plain .dup) s = .ok () s') {wanted : Bool} {span : Span}
    (h : t.Completes env (s'.within wanted span)) : s'.current.draft.Referential 0 := by
  have hf : s'.current.draft.fault = none := by
    have hwithin := h.fault
    cases wanted with
    | false => exact hwithin
    | true => exact Draft.fault_run hwithin
  cases hdup
  exact (Operation.carries_dup.step hs hf).1

theorem Task.Ready.otherMessages {r : Receiver} {m next : Message} {rest : List Message}
    (hs : s.current.draft.Referential 0) {s₁ s₂ : State}
    (hdup : emit (.plain .dup) s = .ok () s₁)
    (hmessage : inRegion env m.isKeyword m.span (Compile.message env r m) s₁ = .ok () s₂)
    (hdiscard : emit .discard s₂ = .ok () s')
    (h : (Task.cascade r (next :: rest)).Completes env s') :
    (Task.cascade r (next :: rest)).Ready env s' := by
  have hfault := h.discarded hdiscard
  obtain ⟨s₃, haction, hf⟩ := inRegion_within hmessage hfault
  have hcopied := referential_copied (t := .message r m) hs hdup ⟨s₃, haction, hf⟩
  have hresolve {s : State} (hscopes : s.scopes = s₁.scopes) (name : String) :
      s.scopes.resolve name = s₁.scopes.resolve name := by rw [hscopes]
  have hgrows := inRegion_grows env
    (fun _ _ hscopes h => message_grows env m (hresolve hscopes) h) hmessage
  have hcarried := m.carried ⟨_, _, hresolve (s₁.within_scopes _ _), haction⟩
  have hsent := hgrows.referential (hcarried.region m.isKeyword m.span) hcopied hfault
  refine h.ready (by simp) ?_
  have hfault := h.fault
  cases hdiscard
  exact (Operation.carries_discard.step hsent hfault).1

/-- A statement with the others, and what is left of it. -/
theorem Task.Ready.statements {first : Statement} {rest : List Statement}
    (h : (Task.statements (first :: rest)).Ready env s) :
    (first.isAnswer = true → rest = []) ∧
      ∃ s₁, Compile.statement env rest.isEmpty first s = .ok () s₁ ∧
        s₁.current.draft.fault = none ∧
        (rest ≠ [] → (Task.statements rest).Ready env s₁) := by
  obtain ⟨hs, hempty, hcompletes⟩ := h
  have hresolve (name : String) : s.scopes.resolve name = s.scopes.resolve name := rfl
  obtain ⟨hlast, s₁, hstatement, hrest⟩ := Completes.statements hcompletes
  have hfault := hrest.fault
  refine ⟨hlast, s₁, hstatement, hfault, fun hne => ?_⟩
  cases first with
  | answer value span => exact absurd (hlast rfl) hne
  | expression value =>
    obtain ⟨s₂, haction, -⟩ := statementWith_opened hstatement hfault
    obtain ⟨r, hvalue⟩ := asValue_ok env haction
    have hcarried := value.carried ⟨s.opened value.span, r, s₂, hresolve, hvalue⟩
    obtain ⟨-, methods, files, hemits⟩ :=
      statement_grows env (.expression value) hresolve hstatement
    obtain ⟨names, hnames⟩ := exists_agree s.blocks.size methods
    have hdraft := hemits.draft names hnames
    have hcode := (hcarried.code names s.blocks.size).region value.span
    have hother : rest.isEmpty = false := by simpa using hne
    rw [hother] at hdraft
    rw [hdraft] at hfault
    refine ⟨?_, fun _ _ => ?_, hrest⟩
    · rw [hdraft]
      exact ((hcode.statement false) _ hs hfault).1
    · rw [hdraft]
      exact Code.entries_statement hcode hs (hempty _ rfl) hfault

theorem Sequence.Opens.ready {body : Sequence} {parameters : List Ident}
    {locals : List VerificationType} (h : body.Opens env parameters locals s)
    (hlocals : ∀ t ∈ locals, t.isReference = true) :
    (Task.statements body.statements).Ready env s := by
  refine ⟨⟨h.types.reachable, ?_⟩, fun _ _ => congrArg Flow.stack h.types.flow, h.completes⟩
  rw [h.types.flow]
  exact ⟨by simp, hlocals⟩

/-- A directive, then the others. -/
theorem Task.Completes.directives {m : Message} {rest : List Message}
    (h : (Task.cascade .escape (m :: rest)).Completes env s) :
    ∃ s₁, (Task.message .escape m).run env s = .ok () s₁ ∧
      (Task.cascade .escape rest).Completes env s₁ := by
  obtain ⟨s', hrun, hf⟩ := h
  rw [run, Compile.cascade, if_pos rfl] at hrun
  obtain ⟨⟨⟩, s₁, hmessage, hrest⟩ := bind_ok hrun
  exact ⟨s₁, hmessage, s', hrest, hf⟩

theorem Task.Calls.ready (hcall : t.Calls env s t' s') (ht : t.directs = false)
    (h : t.Ready env s) : t'.Ready env s' := by
  have hs := h.references
  have hcompletes := hcall.completes ht h.completes
  cases hcall with
  | target | lastMessage => exact hcompletes.ready (by simp) (State.referential_within hs _ _)
  | @sent target _ _ r _ _ hr =>
    exact hcompletes.ready_next (t := .expression target) (by simp) (by simp)
      (State.referential_within hs _ _) (run_expression.2 ⟨r, hr⟩)
  | cascadeTarget | assigned | inner | literal | operand => exact hcompletes.ready (by simp) hs
  | @cascaded target _ _ r _ _ hr =>
    exact hcompletes.ready_next (t := .expression target) (by simp) (by simp) hs
      (run_expression.2 ⟨r, hr⟩)
  | arguments hopen =>
    cases hopen
    exact hcompletes.ready (by simp) hs
  | nextMessage hdup =>
    exact hcompletes.ready (by simp)
      (State.referential_within (referential_copied hs hdup hcompletes) _ _)
  | otherMessages hdup hmessage hdiscard =>
    exact Ready.otherMessages hs hdup hmessage hdiscard hcompletes
  | @argument _ part _ _ _ hnote =>
    obtain ⟨pending, rfl⟩ := notePart_ok hnote
    exact hcompletes.ready part.task_ne_statements hs
  | @otherArguments _ part _ _ _ _ hnote hpart =>
    obtain ⟨pending, rfl⟩ := notePart_ok hnote
    exact hcompletes.ready_next part.task_ne_statements (by simp) (s := { s with pending }) hs hpart
  | body hbody hentered =>
    exact (Completes.body hbody h.completes hentered).ready
      (by simp [Env.blockLocals, VerificationType.isReference])
  | statement hopen =>
    cases hopen
    exact hcompletes.ready (by simp) (Code.referential_openRegion hs)
  | @answer _ span _ _ _ hopen =>
    cases hopen
    have hline := (Operation.carries_line span.line).step (Code.referential_openRegion hs)
      hcompletes.fault
    exact hcompletes.ready (by simp) hline.1
  | otherStatements hfirst =>
    obtain ⟨-, s₁, hfirst', -, hrest⟩ := h.statements
    cases hfirst.symm.trans hfirst'
    exact hrest (by simp)

/-- From every state on the way through a construct that is ready, the next one is. -/
theorem Task.Leads.ready (hleads : t.Leads env s t' s') (h : t.Ready env s) : t'.Ready env s' := by
  cases hleads with
  | call ht hcall => exact hcall.ready ht h
  | directive =>
    obtain ⟨s₁, hmessage, hothers⟩ := Completes.directives h.completes
    exact (hothers.before hmessage).ready (by simp) h.references
  | otherDirectives hmessage =>
    obtain ⟨s₁, hmessage', hothers⟩ := Completes.directives h.completes
    cases hmessage.symm.trans hmessage'
    exact hothers.ready_next (by simp) (by simp) h.references hmessage'

end

section

variable {env : Env} {script : Script} {g : Generated}

/-- All of a script that compiles is ready. -/
theorem Script.Visits.ready (h : generate env script = .ok g) {t : Task} {s : State}
    (hvisits : script.Visits env t s) : t.Ready env s := by
  induction hvisits with
  | start hbody hstart =>
    exact (generate_opens h hbody hstart).ready
      (by simp [Env.scriptLocals, VerificationType.isReference])
  | lead _ hleads ih => exact hleads.ready ih

/-- What a pass asks of straight instructions holds of all that there are. -/
theorem Verifies.exists_holds {P : Flow → Instruction → Prop}
    {frame? : Label → Option (List VerificationType)} {this : Option String}
    {locals : List VerificationType} {place : Nat} {before after : Option Flow}
    {code : List Instruction} (h : Verifies P frame? this locals place before code after)
    {i : Instruction} (hi : i ∈ code) (hs : i.isStraight = true) : ∃ f, P f i := by
  induction h with
  | nil => cases hi
  | cons passes rest ih =>
    rcases List.mem_cons.1 hi with rfl | hi
    · cases passes with
      | unframed | framed | branch => cases hs
      | straight _ _ holds => exact ⟨_, holds⟩
    · exact ih hi

def MethodBody.MovesReferences (b : MethodBody) : Prop :=
  .plain .pop2 ∉ b.instructions ∧
    ∀ {place : Nat} {f : Flow}, b.Arrives none place f →
      b.instructions[place]? = some (.plain .areturn) →
      ∃ t rest, f.stack = t :: rest ∧ t.isReference = true

theorem movesReferences_of_returns {c : Code} (hc : c.Returns env) {locals : List VerificationType}
    (hlocals : ∀ t ∈ locals, t.isReference = true) {b : MethodBody}
    (h : (c.run env (env.method locals)).finish = .ok b) : b.MovesReferences := by
  have hempty : ∀ t ∈ (env.method locals).flow.stack, t.isReference = true := by
    simp [Env.method, Draft.method, Draft.flow]
  have hstart : (env.method locals).Referential 0 := ⟨rfl, hempty, hlocals⟩
  have hverified := Code.verified_of_each env h
    (hc _ hstart (Draft.finishes_of_finish h).fault).2
  refine ⟨fun hmem => ?_, fun {place f} harrives hi => ?_⟩
  · obtain ⟨f, hne, -⟩ := hverified.code.exists_holds hmem rfl
    exact hne rfl
  · exact (hverified.holds harrives hi rfl).2 rfl

theorem markerClass_movesReferences {name : String} {span : Span} {file : ClassFile}
    (h : markerClass env name span = .ok file) {m : Method} (hm : m ∈ file.methods) :
    m.body.MovesReferences := by
  unfold markerClass at h
  split at h
  · cases h
  · rename_i b hfinish
    cases h
    rw [List.mem_singleton.1 hm]
    have hcode := (markerConstructor_verified hfinish).2
    refine ⟨by simp [hcode], fun {place f} _ hi => ?_⟩
    have hmem := List.mem_of_getElem? hi
    simp [hcode] at hmem

/-- All methods that a script becomes. -/
theorem generated_movesReferences (h : generate env script = .ok g) {m : Method}
    (hm : m ∈ g.methods) : m.body.MovesReferences := by
  have houtlined := generate_outlined env h
  obtain ⟨hscript, hblocks⟩ :=
    script.body.carried (Script.forall_mem_bodies.1 (generate_compiles h)).1
  rcases List.mem_cons.1 hm with rfl | hm
  · exact movesReferences_of_returns (hscript (Operation.carries_load 1).single _ _)
      (by simp [Env.scriptLocals, VerificationType.isReference]) houtlined.body
  · rcases List.mem_append.1 hm with hm | hm
    · obtain ⟨literal, hliteral, i, hcompiled⟩ := houtlined.exists_compiled hm
      exact movesReferences_of_returns
        (hblocks literal hliteral (Operation.carryAll_fixed env "referenceNil") _ _)
        (by simp [Env.blockLocals, VerificationType.isReference]) hcompiled.body
    · obtain ⟨file, hfile, hm⟩ := List.mem_flatMap.1 hm
      obtain ⟨name, span, hmarker⟩ := houtlined.blocks.exists_of_mem_files hfile
      exact markerClass_movesReferences hmarker hm

/-- In a script that compiles, whatever directives it has, every statement starts with nothing on
the operand stack, and a statement that is not the last one ends with nothing there. Every other
construct is completed, with references only on the stack before and after it. So no method drops a
value of two slots, and whatever way control takes, returns give references. -/
theorem generate_moves_references (h : generate env script = .ok g) :
    (∀ t s, script.Visits env t s → ∀ x ∈ s.current.draft.stack.entries, x.isReference = true) ∧
    (∀ t s, script.Visits env t s → (∀ ss, t ≠ .statements ss) →
      ∃ s', t.run env s = .ok () s' ∧
        ∀ x ∈ s'.current.draft.stack.entries, x.isReference = true) ∧
    (∀ ss s, script.Visits env (.statements ss) s → s.current.draft.stack.entries = []) ∧
    (∀ first next rest s, script.Visits env (.statements (first :: next :: rest)) s →
      ∃ s', Compile.statement env false first s = .ok () s' ∧
        s'.current.draft.stack.entries = []) ∧
    ∀ m ∈ g.methods, .plain .pop2 ∉ m.body.instructions ∧
      ∀ place f, m.body.Arrives none place f →
        m.body.instructions[place]? = some (.plain .areturn) →
        ∃ x rest, f.stack = x :: rest ∧ x.isReference = true := by
  refine ⟨fun t s hvisits => ?_, fun t s hvisits ht => ?_, fun ss s hvisits => ?_,
    fun first next rest s hvisits => ?_, fun m hm => ?_⟩
  · exact (hvisits.ready h).references.references.stack
  · obtain ⟨hs, -, s', hrun, hf⟩ := hvisits.ready h
    exact ⟨s', hrun, (Task.referential_run ht hs hrun hf).references.stack⟩
  · exact (hvisits.ready h).empty ss rfl
  · obtain ⟨-, s₁, hfirst, -, hrest⟩ := (hvisits.ready h).statements
    exact ⟨s₁, hfirst, (hrest (by simp)).empty _ rfl⟩
  · obtain ⟨hpop, hreturns⟩ := generated_movesReferences h hm
    exact ⟨hpop, fun _ _ => hreturns⟩

end

namespace Sample

def parts (arguments : List (String × String)) : List KeywordPart :=
  arguments.map fun argument => ⟨⟨argument.1, span⟩, .literal .string argument.2 span⟩

def load : List KeywordPart := parts [("aload:", "1")]

def call : List KeywordPart :=
  parts [("invokeVirtual:", "java/lang/Object"), ("method:", "toString"),
    ("matching:", "()Ljava/lang/String;")]

def loadAndCall : List Message := [.keyword load span, .keyword call span]

def directives : Script :=
  ⟨⟨[], [.expression (.cascade (.reference "JVM" span) loadAndCall span)], span⟩, span⟩

def start : State := { State.initial env with scopes := (State.initial env).scopes.push }

theorem receiver_escape : receiver env (.reference "JVM" span) (start.opened span) =
    .ok .escape (start.opened span) := by
  have hlookup : resolve "JVM" (start.opened span) = .ok .unresolved (start.opened span) :=
    congrArg (EStateM.Result.ok · _) (Scope.declares_empty.resolve_eq "JVM")
  exact (bind_of_ok hlookup _).trans rfl

theorem directive_ok {parts : List KeywordPart} {s s' : State}
    (h : Compile.message env .escape (.keyword parts span) s = .ok () s') :
    s' = s.withDraft (s.current.draft.runOperations (Operation.escape env parts span)) := by
  obtain ⟨⟨⟩, s₁, hcheck, h⟩ := bind_ok h
  cases checkParts_ok hcheck
  exact (escape_ok env h).2

def directed : State :=
  (start.opened span).withDraft (((start.opened span).current.draft.runOperations
    (Operation.escape env load span)).runOperations (Operation.escape env call span))

theorem value_directives : asValue env span (receiver env
    (.cascade (.reference "JVM" span) loadAndCall span)) (start.opened span) =
      .ok () directed := by
  have hok : (EStateM.run' (fun _ => Compile.cascade env .escape loadAndCall (start.opened span))
      start).isSome = true := by
    decide +kernel
  cases hcascade : Compile.cascade env .escape loadAndCall (start.opened span) with
  | error e s =>
    rw [hcascade] at hok
    cases hok
  | ok x s =>
    obtain ⟨⟨⟩, s₁, hload, hrest⟩ := bind_ok hcascade
    obtain ⟨⟨⟩, s₂, hcall, hrest⟩ := bind_ok hrest
    cases hrest
    have hs : s = directed := by
      rw [directive_ok hcall, directive_ok hload]
      rfl
    rw [hs] at hcascade
    exact (bind_of_ok ((bind_of_ok receiver_escape _).trans (bind_of_ok hcascade _)) _).trans rfl

def finished : MethodFrame :=
  ⟨(directed.current.draft.settle env true 0).step (.plain .areturn), []⟩

theorem sequence_directives : sequence env pushReceiver directives.body start =
    .ok () { start with current := finished } := by
  have hstatement : Compile.statement env true
      (.expression (.cascade (.reference "JVM" span) loadAndCall span)) start = .ok () _ :=
    (bind_of_ok (show stackDepth start = .ok 0 start from rfl) _).trans
      ((bind_of_ok (show openRegion span start = .ok () (start.opened span) from rfl) _).trans
        ((bind_of_ok value_directives _).trans
          ((bind_of_ok (show Compile.closeRegion env directed = .ok () _ from rfl) _).trans
            (settle_ok env true 0 _))))
  exact (bind_of_ok (bind_of_ok hstatement _) _).trans rfl

theorem generates_directives : ∃ g, generate env directives = .ok g := by
  have hok : (finished.finish span).isOk = true := by decide +kernel
  obtain ⟨b, hfinish⟩ := exists_ok_of_isOk hok
  exact generate_of_sequence env sequence_directives hfinish

end Sample

theorem moves_references_of_directives : ∃ g s s',
    generate Sample.env Sample.directives = .ok g ∧
    Sample.directives.Visits Sample.env (.cascade .escape Sample.loadAndCall) s ∧
    (Task.cascade .escape Sample.loadAndCall).run Sample.env s = .ok () s' ∧
    (∀ x ∈ s'.current.draft.stack.entries, x.isReference = true) ∧
    ∀ m ∈ g.methods, .plain .pop2 ∉ m.body.instructions := by
  obtain ⟨g, hg⟩ := Sample.generates_directives
  obtain ⟨-, hafter, -, -, hmethods⟩ := generate_moves_references hg
  have hstart : Sample.directives.Visits Sample.env _ Sample.start :=
    .start (List.cons_ne_nil _ _) rfl
  have hcascade := (hstart.lead (.call rfl (.statement rfl))).lead
    (.call rfl (.cascaded Sample.receiver_escape))
  obtain ⟨s', hrun, hreferences⟩ := hafter _ _ hcascade (by simp)
  exact ⟨g, _, s', hg, hcascade, hrun, hreferences, fun m hm => (hmethods m hm).1⟩

end SmalltalkJvm
