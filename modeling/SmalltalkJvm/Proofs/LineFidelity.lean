import SmalltalkJvm.Proofs.Disassembly
import SmalltalkJvm.Proofs.Preservation
import SmalltalkJvm.Proofs.Sendings

/-! # Calls have the lines of their messages

The line table of a method attributes the call of every message to the line of the message. It
attributes a handler, which asks for the answer of a block, to the line of the construct that
catches the answer: a keyword message, or else the whole statement.
-/

namespace SmalltalkJvm

open Compile

section

variable (env : Env)

/-- What code catches, as its guards, each with the span of its region. -/
def Code.caught : Code → List ((String × Code) × Span)
  | operations _ | marker _ => []
  | append first second => first.caught ++ second.caught
  | region span body => body.caught ++ body.markers.map fun marker => ((marker, body), span)
  | statement _ body => body.caught

theorem Code.guards_eq (c : Code) : c.guards = c.caught.map Prod.fst := by
  induction c with
  | operations | marker => rfl
  | append first second ihFirst ihSecond =>
    rw [guards, caught, List.map_append, ihFirst, ihSecond]
  | region span body ih =>
    rw [guards, caught, List.map_append, ih, List.map_map]
    rfl
  | statement isLast body ih => exact ih

/-- The handler of an entry opens the line of a span before it asks for the answer. -/
def ExceptionEntry.Opens (code : List Instruction) (e : ExceptionEntry) (marker : String)
    (span : Span) : Prop :=
  ∃ before after, code = before ++ .mark e.handler :: .line span.line ::
    .invoke .invokevirtual (Draft.answerMethod env marker) :: after

namespace Draft

/-- A draft goes on by code whose entries have handlers with the lines of the regions. -/
def OpensHandlers (d d' : Draft) (caught : List ((String × Code) × Span)) : Prop :=
  ∃ entries, d'.handlers.toList = d.handlers.toList ++ entries ∧
    List.Forall₂ (fun e x => e.Opens env d'.code.toList x.1.1 x.2) entries caught

variable {env} {d d' : Draft}

theorem OpensHandlers.nil (h : d'.handlers = d.handlers) : d.OpensHandlers env d' [] :=
  ⟨[], by rw [h, List.append_nil], .nil⟩

theorem OpensHandlers.trans {d₁ : Draft} {first second : List ((String × Code) × Span)}
    (h₁ : d.OpensHandlers env d₁ first) (h₂ : d₁.OpensHandlers env d' second)
    (hcode : d₁.code.toList <+: d'.code.toList) : d.OpensHandlers env d' (first ++ second) := by
  obtain ⟨entries₁, hentries₁, hall₁⟩ := h₁
  obtain ⟨entries₂, hentries₂, hall₂⟩ := h₂
  refine ⟨entries₁ ++ entries₂, by rw [hentries₂, hentries₁, List.append_assoc],
    List.rel_append (hall₁.imp fun e x hopens => ?_) hall₂⟩
  obtain ⟨before, after, hbefore⟩ := hopens
  obtain ⟨more, hmore⟩ := hcode
  exact ⟨before, after ++ more, by rw [← hmore, hbefore]; simp⟩

theorem opensHandlers_runOperations {operations : List Operation}
    (hf : (d.runOperations operations).fault = none) :
    d.OpensHandlers env (d.runOperations operations) [] := by
  have hwires : Wires env d (d.runOperations operations) [] := runOperations_wires hf
  obtain ⟨entries, hentries, hnone⟩ := hwires
  cases hnone
  exact ⟨[], hentries, .nil⟩

/-- The end of a region adds handlers with the line of the region. -/
theorem Closes.opensHandlers {start : Label} {span : Span} {markers : List String}
    (h : Closes env start span markers d d') (hrecords : d.recordsLines = true) (body : Code) :
    d.OpensHandlers env d' (markers.map fun marker => ((marker, body), span)) := by
  refine ⟨_, h.entries, ?_⟩
  rw [map_eq_handlerLabels _ (d.labels.size + 2), regionEntries, List.forall₂_map_left_iff,
    List.forall₂_map_right_iff, List.forall₂_same]
  intro x hx
  obtain ⟨before, after, hcode⟩ := h.exists_handler hx
  refine ⟨before, .plain .areturn :: after, ?_⟩
  rw [hcode, hrecords]
  simp [handlerCode]

end Draft

open Draft in
/-- All handlers of a method that records lines open the lines of their regions. -/
theorem Code.run_opensHandlers {env : Env} {c : Code} {d : Draft} (hrecords : d.recordsLines = true)
    (hf : (c.run env d).fault = none) : d.OpensHandlers env (c.run env d) c.caught := by
  -- Nothing is asked of control: a region is closed whether or not its end is reached.
  induction c generalizing d with
  | operations ops => exact opensHandlers_runOperations hf
  | append first second ihFirst ihSecond =>
    have hf₁ : (first.run env d).fault = none := fault_run env hf
    have hrecords₁ := (run_builds env hf₁).recordsLines.trans hrecords
    exact (ihFirst hrecords hf₁).trans (ihSecond hrecords₁ hf)
      (run_builds (c := second) (d := first.run env d) env hf).code
  | marker name => exact .nil rfl
  | region span body ih =>
    have hfine := fault_closeRegion env hf
    have hrecords₁ : d.openRegion.recordsLines = true := by rwa [openRegion_eq]
    have hopened : d.OpensHandlers env d.openRegion [] := .nil (by rw [openRegion_eq])
    have hinner := hopened.trans (ih hrecords₁ hfine) (run_builds env hfine).code
    by_cases hm : body.markers = []
    · simp only [run, Draft.closeRegion, caught, hm, ↓reduceIte, List.map_nil, List.append_nil]
      exact hinner
    · have hclose := closeRegion_closes env d.nextLabel span hm hf
      have hrecords₂ := (run_builds env hfine).recordsLines.trans hrecords₁
      exact hinner.trans (hclose.opensHandlers hrecords₂ body) hclose.extends.code
  | statement isLast body ih =>
    have hall := (ih hrecords (Draft.fault_run hf)).trans (opensHandlers_runOperations hf)
      (runOperations_builds hf).code
    rwa [List.append_nil] at hall

end

structure Opener where
  catcher : Catcher
  span : Span

structure Creation where
  /-- The place of the block in the order of completion. -/
  number : Nat
  literal : BlockLiteral
  /-- The innermost construct around the block that opens a region. -/
  opener : Opener

def Creation.site (c : Creation) : Site := ⟨c.number, c.literal, c.opener.catcher⟩

/-- Only keyword messages open regions of their own. -/
def Message.opener (m : Message) (catcher : List KeywordPart → Span → Catcher) (span : Span)
    (outer : Opener) : Opener :=
  match m with
  | .keyword parts keywords => ⟨catcher parts keywords, span⟩
  | _ => outer

section

variable (env : Env)

mutual

/-- The blocks that an expression creates, given the construct around it that opens a region and
the number of blocks before it. -/
def Expr.creations (o : Opener) (k : Nat) : Expr → List Creation
  | .literal .. | .pseudo .. | .reference .. | .primitive .. => []
  | .block parameters body span =>
    [⟨k + (body.blocks env).length, ⟨.value, parameters, body, span⟩, o⟩]
  | .send target m span =>
    let inner := m.opener (.send k target) span o
    target.creations inner k ++ m.creations inner (k + (target.blocks env).length)
  | .cascade target messages _ =>
    target.creations o k ++ messageCreations target o (k + (target.blocks env).length) messages
  | .assign _ value _ => value.creations o k
  | .paren inner _ => inner.creations o k

def Message.creations (o : Opener) (k : Nat) : Message → List Creation
  | .unary _ => []
  | .binary _ argument _ => argument.creations o k
  | .keyword parts _ => argumentCreations o k parts

def messageCreations (target : Expr) (o : Opener) (k : Nat) : List Message → List Creation
  | [] => []
  | m :: rest =>
    m.creations (m.opener (.cascaded k target) m.span o) k ++
      messageCreations target o (k + (m.blocks env).length) rest

def argumentCreations (o : Opener) (k : Nat) : List KeywordPart → List Creation
  | [] => []
  | ⟨keyword, argument⟩ :: rest =>
    match argument with
    | .block parameters body span =>
      ⟨k + (body.blocks env).length, ⟨roleOf env keyword.name, parameters, body, span⟩, o⟩ ::
        argumentCreations o (k + ((body.blocks env).length + 1)) rest
    | other => other.creations o k ++ argumentCreations o (k + (other.blocks env).length) rest

end

def Statement.creations (k : Nat) : Statement → List Creation
  | .expression value => value.creations env ⟨.expression k value, value.span⟩ k
  | .answer value span => value.creations env ⟨.answer k value span, span⟩ k

def statementCreations (k : Nat) : List Statement → List Creation
  | [] => []
  | s :: rest => s.creations env k ++ statementCreations (k + (s.blocks env).length) rest

def Sequence.creations (k : Nat) (s : Sequence) : List Creation :=
  statementCreations env k s.statements

variable (resolve : String → Resolution) (names : Nat → String)

def Creation.caught (c : Creation) : (String × Code) × Span :=
  (c.site.guard env resolve names, c.opener.span)

def caughtOf (created : List Creation) : List ((String × Code) × Span) :=
  (created.filter (·.literal.escapes)).map (Creation.caught env resolve names)

theorem caughtOf_append (first second : List Creation) :
    caughtOf env resolve names (first ++ second) =
      caughtOf env resolve names first ++ caughtOf env resolve names second := by
  simp [caughtOf]

/-- Code sends some messages and creates some blocks, whose answers are caught in a region of the
code or else by the construct around it. -/
structure Code.Traces (o : Opener) (code : Code) (sent : List Sending) (created : List Creation) :
    Prop where
  sends : code.Sends env sent
  caught : (code.caught ++ code.markers.map fun marker =>
    ((marker, o.catcher.code env resolve names), o.span)).Perm (caughtOf env resolve names created)

namespace Code.Traces

variable {env resolve names} {o : Opener} {first second : Code}
  {sent before after : List Sending} {created early late : List Creation}

theorem operations {operations : List Operation} (h : ∀ op ∈ operations, op.Quiet) :
    (Code.operations operations).Traces env resolve names o [] [] :=
  ⟨.operations h, List.Perm.refl _⟩

theorem dispatch (m : Message) (r : Receiver) :
    (Code.operations (Operation.dispatch env m.selector m.arity r m.span)).Traces env resolve
      names o [⟨m, decide (r = .super)⟩] [] :=
  ⟨.dispatch m r, List.Perm.refl _⟩

theorem append (hfirst : first.Traces env resolve names o before early) (hruns : first.Runs)
    (hsecond : second.Traces env resolve names o after late) :
    (first.append second).Traces env resolve names o (before ++ after) (early ++ late) where
  sends := hfirst.sends.append hruns hsecond.sends
  caught := by
    rw [caughtOf_append, Code.caught, Code.markers, List.map_append]
    exact (perm_append_exchange ..).trans (List.Perm.append hfirst.caught hsecond.caught)

theorem andOperations (hfirst : first.Traces env resolve names o sent created)
    {operations : List Operation} (h : ∀ op ∈ operations, op.Quiet) :
    (first.append (.operations operations)).Traces env resolve names o sent created where
  sends := hfirst.sends.andOperations h
  caught := by
    rw [Code.caught, Code.markers, Code.caught, Code.markers, List.append_nil, List.append_nil]
    exact hfirst.caught

/-- The region that a construct opens leaves nothing to catch. -/
theorem region (inner : Opener)
    (h : (inner.catcher.code env resolve names).Traces env resolve names inner sent created) :
    (Code.region inner.span (inner.catcher.code env resolve names)).Traces env resolve names o sent
      created where
  sends := h.sends.region inner.span
  caught := by
    rw [Code.markers, List.map_nil, List.append_nil]
    exact h.caught

end Code.Traces

variable {env resolve names}

theorem BlockLiteral.plan_traces (literal : BlockLiteral) (o : Opener) (k : Nat) :
    (literal.plan env names k).Traces env resolve names o []
      [⟨k + (literal.body.blocks env).length, literal, o⟩] where
  sends := by
    obtain ⟨name, hname⟩ : ∃ x, x = names (k + (literal.body.blocks env).length) := ⟨_, rfl⟩
    have hmarker : (if literal.escapes then Code.marker (env.markerName name)
        else .operations []).Sends env [] := by
      split_ifs
      · exact fun d _ _ => .refl d
      · exact .operations (by simp)
    rw [BlockLiteral.plan, ← hname]
    exact Code.Sends.append (.operations (Operation.quiet_block env literal name))
      (hname ▸ (BlockLiteral.plan_runs env names literal k).1) hmarker
  caught := by
    cases h : literal.escapes with
    | false => simp [BlockLiteral.plan, Code.caught, Code.markers, caughtOf, h]
    | true =>
      simp [BlockLiteral.plan, Code.caught, Code.markers, caughtOf, Creation.caught, Creation.site,
        Site.guard, Site.marker, h]

variable (names)

mutual

theorem Expr.plan_traces (e : Expr) (h : env.EscapeFree resolve e.references) (o : Opener)
    (k : Nat) : (e.plan env resolve names k).Traces env resolve names o (e.sendings false)
      (e.creations env o k) := by
  cases e with
  | literal kind text span =>
    exact .operations (List.forall_mem_cons.2 ⟨trivial, Operation.quiet_literal env kind text⟩)
  | pseudo word span =>
    exact .operations (List.forall_mem_cons.2 ⟨trivial, Operation.quiet_pseudo env word⟩)
  | reference name span =>
    rw [Expr.plan, if_neg (h name (by simp [Expr.references]))]
    exact .operations (List.forall_mem_cons.2 ⟨trivial, Operation.quiet_reference env name _⟩)
  | primitive number span => exact .operations (by simp [Operation.Quiet])
  | block parameters body span => exact BlockLiteral.plan_traces _ o k
  | send target m span =>
    have hboth (inner : Opener) := (target.plan_traces h.left inner k).append
      (target.plan_runs env resolve names k)
      (m.plan_traces (asReceiver_ne_escape h.left) h.right inner (k + (target.blocks env).length))
    rw [asReceiver_super] at hboth
    -- The region of a keyword message holds its receiver too.
    cases m with
    | keyword parts keywords => exact .region ⟨.send k target parts keywords, span⟩ (hboth _)
    | unary selector => exact hboth o
    | binary selector argument keywords => exact hboth o
  | cascade target messages span =>
    have hmessages := cascadePlan_traces target (asReceiver_ne_escape h.left) messages h.right o
      (k + (target.blocks env).length)
    exact (target.plan_traces h.left o k).append (target.plan_runs env resolve names k) hmessages
  | assign target value span =>
    refine (value.plan_traces h o k).andOperations (List.forall_mem_cons.2 ⟨trivial, ?_⟩)
    split
    · exact Operation.quiet_assign env _
    · simp
  | paren inner span => exact inner.plan_traces h o k

theorem Message.plan_traces (m : Message) {r : Receiver} (hr : r ≠ .escape)
    (h : env.EscapeFree resolve m.references) (o : Opener) (k : Nat) :
    (m.plan env resolve r names k).Traces env resolve names o
      (m.sendings false ++ [⟨m, decide (r = .super)⟩]) (m.creations env o k) := by
  cases m with
  | unary selector => exact .dispatch (.unary selector) r
  | binary selector argument span =>
    have hcall := (argument.plan_traces h o k).append (argument.plan_runs env resolve names k)
      (.dispatch (.binary selector argument span) r)
    rwa [List.append_nil] at hcall
  | keyword parts span =>
    rw [Message.plan, if_neg hr]
    have hcall := (argumentsPlan_traces parts h o k).append
      (argumentsPlan_runs env resolve names parts k) (.dispatch (.keyword parts span) r)
    rwa [List.append_nil] at hcall

theorem cascadePlan_traces (target : Expr) (hr : target.asReceiver env resolve ≠ .escape)
    (messages : List Message) (h : env.EscapeFree resolve (messageReferences messages))
    (o : Opener) (k : Nat) :
    (cascadePlan env resolve (target.asReceiver env resolve) messages names k).Traces env resolve
      names o (cascadeSendings false target.isSuper messages)
      (messageCreations env target o k messages) := by
  cases messages with
  | nil => exact .operations (by simp)
  | cons m rest =>
    have hrest := cascadePlan_traces target hr rest h.right o (k + (m.blocks env).length)
    have hm (inner : Opener) := m.plan_traces hr h.left inner k
    rw [asReceiver_super] at hm
    have hregion : (Plan.region m.isKeyword m.span
        (m.plan env resolve (target.asReceiver env resolve)) names k).Traces env resolve names o
          (m.sendings false ++ [⟨m, target.isSuper⟩])
          (m.creations env (m.opener (.cascaded k target) m.span o) k) := by
      cases m with
      | keyword parts span => exact .region ⟨.cascaded k target parts span, span⟩ (hm _)
      | unary selector => exact hm o
      | binary selector argument span => exact hm o
    have hruns : (Plan.region m.isKeyword m.span
        (m.plan env resolve (target.asReceiver env resolve)) names k).Runs :=
      Plan.region_runs names (m.plan_runs env resolve names _ k)
    -- The receiver is copied before every message but the last, and the value dropped after it.
    have haround (op : Operation) (hop : op.Quiet) (hne : op ≠ .areturn) :
        (Code.operations (if rest.isEmpty then [] else [op])).Traces env resolve names o [] [] ∧
          (Code.operations (if rest.isEmpty then [] else [op])).Runs := by
      cases rest.isEmpty with
      | false =>
        exact ⟨.operations (List.forall_mem_singleton.2 hop), List.forall_mem_singleton.2 hne⟩
      | true => exact ⟨.operations (by simp), by simp [Code.Runs, Code.All]⟩
    have hdup := haround .dup trivial (by simp)
    have hdiscard := haround .discard trivial (by simp)
    rw [cascadePlan, if_neg hr]
    exact hdup.1.append hdup.2 (hregion.append hruns (hdiscard.1.append hdiscard.2 hrest))

theorem argumentsPlan_traces (parts : List KeywordPart)
    (h : env.EscapeFree resolve (argumentReferences parts)) (o : Opener) (k : Nat) :
    (argumentsPlan env resolve parts names k).Traces env resolve names o
      (argumentSendings false parts) (argumentCreations env o k parts) := by
  cases parts with
  | nil => exact .operations (by simp)
  | cons part rest =>
    obtain ⟨keyword, argument⟩ := part
    have hargument := argument.plan_traces h.left o k
    have hruns := argument.plan_runs env resolve names k
    have hrest := argumentsPlan_traces rest h.right o
    cases argument with
    | block parameters body span =>
      exact (BlockLiteral.plan_traces _ o k).append (BlockLiteral.plan_runs env names _ k) (hrest _)
    | _ => exact hargument.append hruns (hrest _)

end

theorem Statement.plan_traces (s : Statement) (h : env.EscapeFree resolve s.references)
    (isLast : Bool) (k : Nat) :
    (s.plan env resolve isLast names k).Sends env (s.sendings false) ∧
      (s.plan env resolve isLast names k).caught.Perm
        (caughtOf env resolve names (s.creations env k)) := by
  cases s with
  | expression value =>
    have hvalue := value.plan_traces names h ⟨.expression k value, value.span⟩ k
    exact ⟨(hvalue.sends.region value.span).statement isLast, hvalue.caught⟩
  | answer value span =>
    have hvalue := value.plan_traces names h ⟨.answer k value span, span⟩ k
    have hline : (Code.operations [.line span.line]).Runs := by simp [Code.Runs, Code.All]
    have hquiet (op : Operation) (hop : op.Quiet) : ∀ x ∈ [op], x.Quiet :=
      List.forall_mem_singleton.2 hop
    have hall := Code.Traces.append (.operations (hquiet (.line span.line) trivial)) hline
      (hvalue.andOperations (hquiet .areturn trivial))
    exact ⟨(hall.sends.region span).statement isLast, hall.caught⟩

/-- An answer is the last statement, so control comes to all messages. -/
theorem statementsPlan_sends {ss : List Statement}
    (h : env.EscapeFree resolve (ss.flatMap Statement.references))
    (hchecked : statementsChecked env resolve ss) (k : Nat) :
    (statementsPlan env resolve ss names k).Sends env (statementSendings false ss) := by
  induction ss generalizing k with
  | nil => exact .operations (by simp)
  | cons s rest ih =>
    have hfirst := (s.plan_traces names h.left rest.isEmpty k).1
    have hrest := ih h.right hchecked.2.2
    cases s with
    | expression value => exact hfirst.append (value.plan_runs env resolve names k) (hrest _)
    | answer value span =>
      obtain rfl := hchecked.1 rfl
      rw [statementSendings, statementSendings, List.append_nil]
      exact hfirst.andOperations (by simp)

theorem statementsPlan_caught {ss : List Statement}
    (h : env.EscapeFree resolve (ss.flatMap Statement.references)) (k : Nat) :
    (statementsPlan env resolve ss names k).caught.Perm
      (caughtOf env resolve names (statementCreations env k ss)) := by
  induction ss generalizing k with
  | nil => exact List.Perm.refl _
  | cons s rest ih =>
    rw [statementCreations, caughtOf_append]
    exact List.Perm.append (s.plan_traces names h.left rest.isEmpty k).2 (ih h.right _)

theorem Sequence.plan_sends {s : Sequence} {parameters : List Ident}
    (h : s.EscapeFree env parameters) (hchecked : s.Checked env parameters)
    {whenEmpty : List Operation} (hempty : ∀ op ∈ whenEmpty, op.Quiet) (k : Nat) :
    (s.plan env parameters whenEmpty names k).Sends env (s.sendings false) := by
  obtain ⟨temporaries, ss, span⟩ := s
  have hdeclares : (Code.operations (Operation.declarations env temporaries)).Runs := fun op hop =>
    (Operation.standard_declarations env temporaries op hop).ne_areturn
  have hbody : ((if ss.isEmpty then Plan.operations (.line span.line :: whenEmpty)
      else statementsPlan env (lookup parameters temporaries) ss) names k).Sends env
        (statementSendings false ss) := by
    cases ss with
    | nil => exact .operations (List.forall_mem_cons.2 ⟨trivial, hempty⟩)
    | cons statement rest => exact statementsPlan_sends names h hchecked k
  exact Code.Sends.append (.operations (Operation.quiet_declarations env temporaries)) hdeclares
    (hbody.andOperations (by simp [Operation.Quiet]))

theorem Sequence.plan_caught {s : Sequence} {parameters : List Ident}
    (h : s.EscapeFree env parameters) (whenEmpty : List Operation) (k : Nat) :
    (s.plan env parameters whenEmpty names k).caught.Perm
      (caughtOf env (lookup parameters s.temporaries) names (s.creations env k)) := by
  obtain ⟨temporaries, ss, span⟩ := s
  have hcaught : (Sequence.plan env parameters whenEmpty ⟨temporaries, ss, span⟩ names k).caught =
      (statementsPlan env (lookup parameters temporaries) ss names k).caught := by
    cases ss <;> simp [Sequence.plan, Plan.append, Plan.operations, Code.caught, statementsPlan]
  rw [hcaught]
  exact statementsPlan_caught names h k

end

section

variable (env : Env) (resolve : String → Resolution) (names : Nat → String)

/-- The calls and the handlers of a method: there is one call for each message, and one handler for
each block that answers from the method. -/
structure MethodBody.Traced (b : MethodBody) (sent : List Sending) (created : List Creation) :
    Prop where
  sends : List.Forall₂ (fun x s => s.MadeAt env b.instructions x.2)
    (b.instructions.zipIdx.filter fun x => x.1.isSend) sent
  answers : ∃ order, order.Perm (created.filter (·.literal.escapes)) ∧
    List.Forall₂ (fun e c => e.Guards env b.instructions (c.site.marker env names)
        (c.opener.catcher.code env resolve names) ∧
      e.Opens env b.instructions (c.site.marker env names) c.opener.span) b.handlers order

variable {env names}

theorem Sequence.traced {s : Sequence} {parameters : List Ident} (h : s.EscapeFree env parameters)
    (hchecked : s.Checked env parameters) (hlines : env.settings.lineNumbers = true)
    {whenEmpty : List Operation} (hempty : ∀ op ∈ whenEmpty, op.Quiet) {k : Nat}
    {locals : List VerificationType} {b : MethodBody}
    (hfinish : ((s.plan env parameters whenEmpty names k).run env (env.method locals)).finish =
      .ok b) :
    b.Traced env (lookup parameters s.temporaries) names (s.sendings false)
      (s.creations env k) := by
  have hfinishes := Draft.finishes_of_finish hfinish
  have hlined : (env.method locals).Lined := .of_none rfl hlines rfl
  refine ⟨?_, ?_⟩
  · obtain ⟨added, hadded, hsent⟩ :=
      Sequence.plan_sends names h hchecked hempty k _ hlined hfinishes.fault
    rw [← hfinishes.instructions] at hadded hsent
    obtain rfl : b.instructions = added := hadded
    exact hsent
  · obtain ⟨entries, hentries, hopens⟩ := Code.run_opensHandlers hlines hfinishes.fault
    obtain ⟨entries', hentries', hguards⟩ := s.plan_wires hchecked rfl hfinishes.fault
    rw [← hfinishes.handlers] at hentries hentries'
    obtain rfl : b.handlers = entries := hentries
    obtain rfl : b.handlers = entries' := hentries'
    rw [Code.guards_eq, List.forall₂_map_right_iff] at hguards
    obtain ⟨order, hcaught, horder⟩ := (congrFun₂ (List.eq_map_comp_perm _) _ _).mpr
      (s.plan_caught names h whenEmpty k)
    have hboth := hguards.mp (fun _ _ hg ho => And.intro hg ho) hopens
    rw [hcaught, List.forall₂_map_right_iff, ← hfinishes.instructions] at hboth
    exact ⟨order, horder, hboth⟩

end

section

variable {R : Operand → Nat → Prop}

theorem codeSize_eq_zero {code : List Instruction} {linked : List Linked}
    (h : List.Forall₂ (Instruction.LinksTo R) code linked)
    (hcode : ∀ i ∈ code, i.isCode = false) : codeSize linked = 0 := by
  induction h with
  | nil => rfl
  | cons hik _ ih =>
    obtain ⟨hi, hcode⟩ := List.forall_mem_cons.1 hcode
    rw [codeSize_cons, hik.size_eq_zero hi, ih hcode]

/-- Marks and lines do not move what comes behind them. -/
theorem codeSize_take_append {before skipped after : List Instruction} {linked : List Linked}
    (h : List.Forall₂ (Instruction.LinksTo R) (before ++ (skipped ++ after)) linked)
    (hskipped : ∀ i ∈ skipped, i.isCode = false) :
    codeSize (linked.take (before ++ skipped).length) = codeSize (linked.take before.length) := by
  have hdrop := List.forall₂_take skipped.length (List.forall₂_drop before.length h)
  rw [List.drop_left, List.take_left] at hdrop
  rw [List.length_append, List.take_add, codeSize_append, codeSize_eq_zero hdrop hskipped,
    Nat.add_zero]

variable {b : MethodBody} {name : String} {linked : List Linked}
  {read : CodeSummary} (hlinks : List.Forall₂ (Instruction.LinksTo R) b.instructions linked)
  (hread : b.IsReadAs name (Layout.ofList linked) read)

include hlinks hread

/-- What is read attributes an instruction that produces code to the line opened last before it. -/
theorem lineAt_read {before after : List Instruction} {i : Instruction} (hi : i.isCode = true)
    (hcode : b.instructions = before ++ i :: after) :
    ∃ pc, (Layout.ofList linked).offsetOf? before.length = some pc ∧
      pc = codeSize (linked.take before.length) ∧ lineAt read.lines pc = lastLine before := by
  rw [hread.lines]
  exact exists_lineAt hlinks hi hcode

end

section

variable (env : Env) (resolve : String → Resolution) (names : Nat → String) (b : MethodBody)
  (layout : Layout) (read : CodeSummary)

/-- The call of a message stands at a place of a body, right behind its selector, and the line table
that is read attributes it to the line of the message. -/
structure Sending.AttributedAt (place : Nat) (s : Sending) : Prop where
  call : b.instructions[place]? = some (s.call env)
  selector : (b.instructions.take place).getLast? = some (.constant (.string s.message.selector))
  line : ∃ pc, layout.offsetOf? place = some pc ∧ lineAt read.lines pc = some s.message.span.line

/-- A row catches the answers of a block: its handler starts by asking for the answer, and the line
table attributes that call to the line of the construct which opened the region. -/
structure ExceptionRow.AttributedTo (row : ExceptionRow) (c : Creation) : Prop where
  catches : row.catches = some (c.site.marker env names)
  call : ∃ place, b.instructions[place]? =
      some (.invoke .invokevirtual (Draft.answerMethod env (c.site.marker env names))) ∧
    layout.offsetOf? place = some row.handler
  line : lineAt read.lines row.handler = some c.opener.span.line

/-- The line table of a method attributes the calls of its messages to the lines of the messages,
and its handlers to the lines of the constructs that opened the regions. -/
structure MethodBody.Attributes (sent : List Sending) (created : List Creation) : Prop where
  /-- The calls that send messages are those of the messages, in their order. -/
  sends : List.Forall₂ (fun x s => s.AttributedAt env b layout read x.2)
    (b.instructions.zipIdx.filter fun x => x.1.isSend) sent
  /-- The handlers are those of the blocks that answer from the method, and each region is the code
  of the construct that opened it. -/
  answers : ∃ order, order.Perm (created.filter (·.literal.escapes)) ∧
    List.Forall₂ (fun e c => e.Guards env b.instructions (c.site.marker env names)
      (c.opener.catcher.code env resolve names)) b.handlers order ∧
    List.Forall₂ (fun row c => row.AttributedTo env names b layout read c) read.exceptions order

variable {env resolve names b read} {R : Operand → Nat → Prop} {name : String}
  {linked : List Linked}

theorem Sending.MadeAt.attributed
    (hlinks : List.Forall₂ (Instruction.LinksTo R) b.instructions linked)
    (hread : b.IsReadAs name (Layout.ofList linked) read) {place : Nat} {s : Sending}
    (h : s.MadeAt env b.instructions place) :
    s.AttributedAt env b (Layout.ofList linked) read place := by
  obtain ⟨hlt, hget⟩ := List.getElem?_eq_some_iff.1 h.call
  have hcode : b.instructions = b.instructions.take place ++
      s.call env :: b.instructions.drop (place + 1) := by
    rw [← hget, List.cons_getElem_drop_succ, List.take_append_drop]
  obtain ⟨pc, hpc, -, hline⟩ := lineAt_read hlinks hread (i := s.call env) rfl hcode
  rw [List.length_take_of_le hlt.le] at hpc
  exact ⟨h.call, h.selector, pc, hpc, hline.trans h.line⟩

theorem ExceptionEntry.Opens.attributed
    (hlinks : List.Forall₂ (Instruction.LinksTo R) b.instructions linked)
    (hread : b.IsReadAs name (Layout.ofList linked) read)
    (hmarks : ∀ label, b.instructions.count (.mark label) ≤ 1) {e : ExceptionEntry}
    {row : ExceptionRow} (hrow : e.IsReadAs (Layout.ofList linked) name row) {c : Creation}
    (hcatches : e.catches = some (c.site.marker env names))
    (h : e.Opens env b.instructions (c.site.marker env names) c.opener.span) :
    row.AttributedTo env names b (Layout.ofList linked) read c := by
  obtain ⟨before, after, hcode⟩ := h
  obtain ⟨opening, hopening⟩ : ∃ x : List Instruction,
    x = [.mark e.handler, .line c.opener.span.line] := ⟨_, rfl⟩
  obtain ⟨calling, hcalling⟩ : ∃ x, x = Instruction.invoke .invokevirtual
    (Draft.answerMethod env (c.site.marker env names)) := ⟨_, rfl⟩
  have hsplit : b.instructions = before ++ opening ++ calling :: after := by
    rw [hcode, hopening, hcalling, List.append_assoc]
    rfl
  obtain ⟨pc, hpc, hsize, hline⟩ := lineAt_read hlinks hread (by rw [hcalling]; rfl) hsplit
  have hstart : pc = row.handler := by
    rw [offset_eq_of_count hlinks (hmarks _) hrow.handler, markPlace_of_count (hmarks _) hcode,
      hsize]
    rw [hsplit, List.append_assoc] at hlinks
    refine codeSize_take_append hlinks ?_
    simp [hopening, Instruction.isCode]
  have hlast : lastLine (before ++ opening) = some c.opener.span.line := by
    simp [hopening, lastLine, Instruction.lineAfter]
  rw [hstart] at hpc hline
  refine ⟨hrow.catches.trans hcatches, ⟨(before ++ opening).length, ?_, hpc⟩, hline.trans hlast⟩
  rw [hsplit, List.getElem?_append_right (Nat.le_refl _), Nat.sub_self, hcalling]
  rfl

theorem forall₂_of_common {α β γ : Type} {P : α → β → Prop} {Q : α → γ → Prop} {S : β → γ → Prop}
    {xs : List α} {ys : List β} {zs : List γ} (h : ∀ x y z, P x y → Q x z → S y z)
    (hxy : List.Forall₂ P xs ys) (hxz : List.Forall₂ Q xs zs) : List.Forall₂ S ys zs := by
  induction hxy generalizing zs with
  | nil =>
    cases hxz
    exact .nil
  | cons hfirst _ ih =>
    obtain ⟨z, rest, hz, hrest, rfl⟩ := List.forall₂_cons_left_iff.1 hxz
    exact .cons (h _ _ _ hfirst hz) (ih hrest)

theorem MethodBody.Traced.attributes
    (hlinks : List.Forall₂ (Instruction.LinksTo R) b.instructions linked)
    (hread : b.IsReadAs name (Layout.ofList linked) read)
    (hmarks : ∀ label, b.instructions.count (.mark label) ≤ 1) {sent : List Sending}
    {created : List Creation} (h : b.Traced env resolve names sent created) :
    b.Attributes env resolve names (Layout.ofList linked) read sent created := by
  obtain ⟨order, horder, hall⟩ := h.answers
  refine ⟨h.sends.imp fun _ _ hmade => hmade.attributed hlinks hread, order, horder,
    hall.imp fun _ _ hboth => hboth.1, forall₂_of_common ?_ hread.exceptions hall⟩
  intro e row c hrow hboth
  exact hboth.2.attributed hlinks hread hmarks hrow hboth.1.catches

end

section

variable {env : Env} {script : Script} {g : Generated} {u : CompiledUnit} {fixed : List Method}

variable (env script g) in
/-- A method that was generated, with what names resolve to in it, the messages that it sends and
the blocks that it creates. -/
inductive Compile.Generated.Holds :
    Method → (String → Resolution) → List Sending → List Creation → Prop where
  | script : Holds g.sendMessages (lookup [] script.body.temporaries) (script.body.sendings false)
      (script.body.creations env 0)
  | block {i : Nat} {literal : BlockLiteral} {method : Method}
      (hl : (script.body.blocks env)[i]? = some literal) (hm : g.blocks[i]? = some method) :
      Holds method (lookup literal.parameters literal.body.temporaries)
        (literal.body.sendings false)
        (literal.body.creations env (i - (literal.body.blocks env).length))

theorem Compile.Generated.Holds.traced (hg : generate env script = .ok g)
    (hfree : script.EscapeFree env) (hlines : env.settings.lineNumbers = true) {m : Method}
    {resolve : String → Resolution} {sent : List Sending} {created : List Creation}
    (h : g.Holds env script m resolve sent created) :
    m.body.Traced env resolve g.names sent created := by
  have houtlined := generate_outlined env hg
  have hchecked := generate_checked env hg
  cases h with
  | script =>
    exact Sequence.traced hfree.1 hchecked hlines (by simp [Operation.Quiet]) houtlined.body
  | @block i literal _ hl hm =>
    have hmem := List.mem_of_getElem? hl
    have hcompiled := houtlined.compiled hl hm
    exact Sequence.traced (hfree.2 literal hmem)
      (generate_checked_blocks env hg literal hmem) hlines
      (Operation.quiet_nilOperations env) hcompiled.body

/-- The messages of a script are those of its methods, taken together. -/
theorem exists_parts (hg : generate env script = .ok g) :
    ∃ parts, (script.body.sendings true).Perm parts.flatten ∧
      List.Forall₂ (fun m sent => ∃ resolve created, g.Holds env script m resolve sent created)
        (g.sendMessages :: g.blocks) parts := by
  have hgathers := script.body.gathers env
  rw [Gathers, List.flatMap_def, ← List.flatten_cons] at hgathers
  refine ⟨_, hgathers, .cons ⟨_, _, .script⟩ ?_⟩
  rw [List.forall₂_map_right_iff, List.forall₂_iff_get]
  refine ⟨(generate_outlined env hg).blocks.length_eq, fun i hm hl => ?_⟩
  exact ⟨_, _, .block (List.getElem?_eq_getElem hl) (List.getElem?_eq_getElem hm)⟩

/-- Only the methods of the script have handlers. -/
theorem CompiledUnit.Consists.mem_of_handlers (hu : u.Consists env script g fixed)
    {c : CompiledClass} (hc : c ∈ u.classes) {m : Method} (hm : m ∈ c.file.methods)
    (h : m.body.handlers ≠ []) : m ∈ g.sendMessages :: g.blocks := by
  rcases hu.method_cases hc hm with ⟨name, span, hmarker⟩ | ⟨-, hm | hm⟩
  · exact absurd (markerClass_verified hmarker hm).2 h
  · exact absurd (fixedMethods_verified hu.prepares hu.name hm).2 h
  · exact hm

end

/-- With line numbers, the line tables of a compiled script that has no escapes are faithful. All
its messages are sent by its methods; each call that sends a message is attributed to the line of
the message, and each handler's call for an answer to the line of the construct that opened the
handler's region: a keyword message with its receiver, a keyword message of a cascade, or a
statement. -/
theorem compileUnit_attributes_lines {settings : Settings} {unit : UnitName} {script : Script}
    {u : CompiledUnit} (h : compileUnit settings unit script = .ok u)
    (hlines : settings.lineNumbers = true) (hfree : script.EscapeFree ⟨settings, unit⟩) :
    ∃ g fixed, u.Consists ⟨settings, unit⟩ script g fixed ∧
      (∃ parts, (script.body.sendings true).Perm parts.flatten ∧
        List.Forall₂ (fun m sent => ∃ resolve created,
          g.Holds ⟨settings, unit⟩ script m resolve sent created) (g.sendMessages :: g.blocks)
            parts) ∧
      ∀ c ∈ u.classes, ∃ p l s, c.file.parts {} = .ok p l ∧ c.bytes = p.bytes c.file l ∧
        Summary.parse c.bytes = .ok s ∧
        List.Forall₂ (fun (m : Method) (r : MethodSummary) => ∃ code linked, r.code = some code ∧
          List.Forall₂ (Instruction.LinksTo l.Denotes) m.body.instructions linked ∧
          m.body.IsReadAs m.name (Layout.ofList linked) code ∧
          (code.exceptions ≠ [] → m ∈ g.sendMessages :: g.blocks) ∧
          ∀ resolve sent created, g.Holds ⟨settings, unit⟩ script m resolve sent created →
            m.body.Attributes ⟨settings, unit⟩ resolve g.names (Layout.ofList linked) code sent
              created) c.file.methods s.methods := by
  obtain ⟨g, fixed, hu⟩ := compileUnit_consists h
  refine ⟨g, fixed, hu, exists_parts hu.generates, fun c hc => ?_⟩
  obtain ⟨p, l, hparts, hbytes, hl, ha⟩ := exists_assembled h hc
  obtain ⟨s, hs, hread⟩ := ha.exists_summary hl (moderate_of_compileUnit h hc)
  rw [← hbytes] at hs
  refine ⟨p, l, s, hparts, hbytes, hs, ((List.forall₂_and_left _ _).2
    ⟨fun m hm => hm, hread.methods⟩).imp ?_⟩
  rintro m r ⟨hm, hmethod⟩
  obtain ⟨code, linked, hcode, hlinks, hbody⟩ := hmethod.code
  have hmarks := (hu.nested hc hm).2.count_mark_le
  refine ⟨code, linked, hcode, hlinks, hbody, fun hsome => ?_,
    fun resolve sent created hholds => ?_⟩
  · refine hu.mem_of_handlers hc hm fun hnone => hsome ?_
    have hexceptions := hbody.exceptions
    rw [hnone] at hexceptions
    exact List.forall₂_nil_left_iff.1 hexceptions
  · exact (hholds.traced hu.generates hfree hlines).attributes hlinks hbody hmarks

namespace Sample

def sendingBody : Sequence :=
  ⟨[], [.answer (.send (.literal .number "3" (.ofLine 2)) (.unary ⟨"negated", .ofLine 3⟩)
    (.ofLine 2)) (.ofLine 2)], .ofLine 2⟩

def sending : Script := ⟨⟨[], [.expression (.block [] sendingBody span)], span⟩, span⟩

theorem compiles_sending : ∃ u, compileUnit {} unit sending = .ok u :=
  compileUnit_of_outlines (by decide +kernel) (by decide) (by decide +kernel)

theorem escapeFree_sending : sending.EscapeFree env := by decide

end Sample

theorem lines_attributed_of_sample : ∃ u, compileUnit {} Sample.unit Sample.sending = .ok u ∧
    ({} : Settings).lineNumbers = true ∧ Sample.sending.EscapeFree Sample.env ∧
    ∃ g fixed s, u.Consists Sample.env Sample.sending g fixed ∧
      Summary.parse u.primary.bytes = .ok s ∧
      -- The handler in the script's method.
      (∃ r ∈ s.methods, ∃ code row, r.code = some code ∧
        List.Forall₂ (fun e row => row.catches = e.catches) g.sendMessages.body.handlers
          code.exceptions ∧
        code.exceptions = [row] ∧ lineAt code.lines row.handler = some 1) ∧
      -- The call in the block's method.
      ∃ m ∈ g.blocks, ∃ r ∈ s.methods, ∃ code linked place pc, r.code = some code ∧
        m.body.IsReadAs m.name (Layout.ofList linked) code ∧
        m.body.instructions[place]? =
          some (Sending.call Sample.env ⟨.unary ⟨"negated", .ofLine 3⟩, false⟩) ∧
        (Layout.ofList linked).offsetOf? place = some pc ∧ lineAt code.lines pc = some 3 := by
  obtain ⟨u, hu⟩ := Sample.compiles_sending
  obtain ⟨g, fixed, hconsists, -, hclasses⟩ :=
    compileUnit_attributes_lines hu rfl Sample.escapeFree_sending
  obtain ⟨p, l, s, -, -, hs, hall⟩ :=
    hclasses u.primary (List.mem_append_right _ (List.mem_singleton_self _))
  have hmethods (m : Method) (hm : m ∈ g.sendMessages :: g.blocks) :
      m ∈ u.primary.file.methods := by
    rw [hconsists.methods]
    exact List.mem_append_right _ hm
  refine ⟨u, hu, rfl, Sample.escapeFree_sending, g, fixed, s, hconsists, hs, ?_, ?_⟩
  · obtain ⟨r, hr, code, linked, hcode, -, hread, -, hattributes⟩ :=
      exists_of_mem_left hall (hmethods _ List.mem_cons_self)
    obtain ⟨order, horder, -, hrows⟩ := (hattributes _ _ _ .script).answers
    obtain rfl := List.perm_singleton.1 horder
    obtain ⟨row, rest, hrow, hrest, hexceptions⟩ := List.forall₂_cons_right_iff.1 hrows
    obtain rfl := List.forall₂_nil_right_iff.1 hrest
    exact ⟨r, hr, code, row, hcode, hread.exceptions.imp fun _ _ he => he.catches, hexceptions,
      hrow.line⟩
  · have hlength : g.blocks.length = 1 :=
      (generate_outlined _ hconsists.generates).blocks.length_eq
    obtain ⟨m, hm⟩ := List.length_eq_one_iff.1 hlength
    have hmem : m ∈ g.blocks := by
      rw [hm]
      exact List.mem_singleton_self m
    obtain ⟨r, hr, code, linked, hcode, -, hread, -, hattributes⟩ :=
      exists_of_mem_left hall (hmethods m (List.mem_cons_of_mem _ hmem))
    have hholds : g.Holds Sample.env Sample.sending m _ _ _ :=
      .block (i := 0) rfl (by rw [hm]; rfl)
    obtain ⟨x, rest, hx, -, -⟩ := List.forall₂_cons_right_iff.1 (hattributes _ _ _ hholds).sends
    obtain ⟨pc, hpc, hline⟩ := hx.line
    exact ⟨m, hmem, r, hr, code, linked, x.2, pc, hcode, hread, hx.call, hpc, hline⟩

end SmalltalkJvm
