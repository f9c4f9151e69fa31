import SmalltalkJvm.Proofs.Boundaries
import SmalltalkJvm.Proofs.Constituents
import SmalltalkJvm.Proofs.LineErasure
import SmalltalkJvm.Proofs.LineFidelity
import SmalltalkJvm.Proofs.Phrases

/-! # Escape mode

Only a free reference to the escape identifier leads to directives. A script that has none for
either of two identifiers is compiled alike under both; and in a script that compiles, such a
reference stands as the receiver of directives and nowhere else.
-/

namespace SmalltalkJvm

open Compile

def Env.withEscape (env : Env) (identifier : String) : Env :=
  { env with settings := { env.settings with escapeIdentifier := identifier } }

theorem Sequence.blocks_withEscape (body : Sequence) (env : Env) (identifier : String) :
    body.blocks (env.withEscape identifier) = body.blocks env := by
  delta Sequence.blocks
  rfl

def AnyErrors (_ _ : CompileError) : Prop := True

theorem anyErrors (e : CompileError) : AnyErrors e e := trivial

abbrev SameSuccess {α : Type} (r r' : EStateM.Result CompileError State α) : Prop :=
  Alike AnyErrors r r'

section

variable (env : Env) (identifier : String)

/-- None of the references of a construct, and none in its blocks, is free and refers to the escape
identifier or to another. -/
structure Env.Avoids (resolve : String → Resolution) (names : List String)
    (literals : List BlockLiteral) : Prop where
  own : env.EscapeFree resolve names
  other : (env.withEscape identifier).EscapeFree resolve names
  blocks : ∀ literal ∈ literals, literal.body.EscapeFree env literal.parameters ∧
    literal.body.EscapeFree (env.withEscape identifier) literal.parameters

variable {env identifier}

theorem Env.Avoids.left {resolve : String → Resolution} {first second : List String}
    {early late : List BlockLiteral}
    (h : env.Avoids identifier resolve (first ++ second) (early ++ late)) :
    env.Avoids identifier resolve first early :=
  ⟨h.own.left, h.other.left, (List.forall_mem_append.1 h.blocks).1⟩

theorem Env.Avoids.right {resolve : String → Resolution} {first second : List String}
    {early late : List BlockLiteral}
    (h : env.Avoids identifier resolve (first ++ second) (early ++ late)) :
    env.Avoids identifier resolve second late :=
  ⟨h.own.right, h.other.right, (List.forall_mem_append.1 h.blocks).2⟩

/-- The last of some blocks, as the sequence of a method. -/
theorem Env.Avoids.body {resolve : String → Resolution} {names : List String}
    {literals : List BlockLiteral} {literal : BlockLiteral}
    (h : env.Avoids identifier resolve names (literals ++ [literal])) :
    env.Avoids identifier (lookup literal.parameters literal.body.temporaries)
      (literal.body.statements.flatMap Statement.references) literals := by
  obtain ⟨hblocks, hliteral⟩ := List.forall_mem_append.1 h.blocks
  obtain ⟨hown, hother⟩ := List.forall_mem_singleton.1 hliteral
  exact ⟨hown, hother, hblocks⟩

theorem SameSuccess.asValue {s : State} {x y : Compile Receiver} (h : SameSuccess (x s) (y s))
    (span : Span) :
    SameSuccess (asValue env span x s) (asValue (env.withEscape identifier) span y s) := by
  apply h.bind
  intro r s' _
  split_ifs
  · trivial
  · exact .refl anyErrors _

theorem rejectEscape_of_ne {r : Receiver} (hr : r ≠ .escape) (selector : Ident) :
    rejectEscape env r selector = pure () := by
  rw [rejectEscape, if_neg hr]

mutual

theorem receiver_avoids (e : Expr) {resolve : String → Resolution} {s : State}
    (hs : s.Resolves resolve)
    (h : env.Avoids identifier resolve e.references (e.blocks env)) :
    SameSuccess (receiver env e s) (receiver (env.withEscape identifier) e s) := by
  cases e with
  | literal | pseudo => exact .refl anyErrors _
  | reference name span =>
    have hown := h.own name (List.mem_singleton_self name)
    have hother := h.other name (List.mem_singleton_self name)
    rw [receiver, receiver]
    refine Alike.after anyErrors (Compile.resolve name) fun resolution s' hname => ?_
    cases hname
    rw [if_neg (by rwa [hs name]), if_neg (by rwa [hs name])]
    exact .refl anyErrors _
  | block parameters body span =>
    rw [receiver, receiver]
    apply Alike.andThen anyErrors
    apply Alike.block anyErrors env
    intro s₁ top rest hscopes htop
    exact sequence_avoids body (pushNil env) hscopes htop h.body
  | send target m span =>
    rw [receiver, receiver]
    apply Alike.andThen anyErrors
    apply Alike.inRegion anyErrors env
    intro s₁ hscopes
    have hs₁ := hs.of_scopes hscopes
    refine (receiver_avoids target hs₁ h.left).bind fun r s₂ hr => ?_
    obtain ⟨rfl, hgrows⟩ := receiver_grows env target hs₁ hr
    exact message_avoids m (hs₁.of_scopes hgrows.1) (asReceiver_ne_escape h.left.own) h.right
  | cascade target messages span =>
    rw [receiver, receiver]
    split_ifs
    · trivial
    · refine (receiver_avoids target hs h.left).bind fun r s₁ hr => ?_
      obtain ⟨rfl, hgrows⟩ := receiver_grows env target hs hr
      apply Alike.andThen anyErrors
      exact cascade_avoids messages (hs.of_scopes hgrows.1) (asReceiver_ne_escape h.left.own)
        h.right
  | assign target value span =>
    rw [receiver, receiver]
    refine Alike.after anyErrors (assignable target) fun slot s₁ hslot => ?_
    obtain ⟨-, rfl⟩ := assignable_ok hslot
    apply Alike.andThen anyErrors
    exact (receiver_avoids value hs h).asValue value.span
  | paren inner span =>
    rw [receiver, receiver]
    apply Alike.andThen anyErrors
    exact (receiver_avoids inner hs h).asValue inner.span
  | primitive number span => trivial

theorem message_avoids (m : Message) {r : Receiver} {resolve : String → Resolution} {s : State}
    (hs : s.Resolves resolve) (hr : r ≠ .escape)
    (h : env.Avoids identifier resolve m.references (m.blocks env)) :
    SameSuccess (message env r m s) (message (env.withEscape identifier) r m s) := by
  cases m with
  | unary selector =>
    rw [message, message, rejectEscape_of_ne hr, rejectEscape_of_ne hr]
    exact .refl anyErrors _
  | binary selector argument span =>
    rw [message, message, rejectEscape_of_ne hr, rejectEscape_of_ne hr, pure_bind, pure_bind]
    apply Alike.andThen anyErrors
    exact (receiver_avoids argument hs h).asValue argument.span
  | keyword parts span =>
    rw [message, message, keywordMessage, keywordMessage]
    refine Alike.after anyErrors (checkParts parts span) fun _ s₁ hcheck => ?_
    cases checkParts_ok hcheck
    rw [if_neg hr, if_neg hr]
    refine Alike.after anyErrors (checkArity _ _ span) fun _ s₁ hcheck => ?_
    cases checkArity_ok hcheck
    apply Alike.keyword anyErrors
    intro s₁ hscopes
    exact arguments_avoids parts true (hs.of_scopes hscopes) h

theorem cascade_avoids (messages : List Message) {r : Receiver} {resolve : String → Resolution}
    {s : State} (hs : s.Resolves resolve) (hr : r ≠ .escape)
    (h : env.Avoids identifier resolve (messageReferences messages) (messageBlocks env messages)) :
    SameSuccess (cascade env r messages s) (cascade (env.withEscape identifier) r messages s) := by
  cases messages with
  | nil => exact .refl anyErrors _
  | cons m rest =>
    have hm {s₁ : State} (hs₁ : s₁.Resolves resolve) :
        SameSuccess (inRegion env m.isKeyword m.span (message env r m) s₁)
          (inRegion env m.isKeyword m.span (message (env.withEscape identifier) r m) s₁) := by
      apply Alike.inRegion anyErrors env
      intro s₂ hscopes
      exact message_avoids m (hs₁.of_scopes hscopes) hr h.left
    have hkeeps := keeps_inRegion env m.isKeyword m.span (keeps_message env r m)
    rw [cascade, cascade, if_neg hr, if_neg hr]
    split_ifs
    · refine Alike.after anyErrors _ fun _ s₁ hdup => ?_
      have hs₁ := hs.emitted hdup
      refine (hm hs₁).bind fun _ s₂ hmessage => ?_
      refine Alike.after anyErrors _ fun _ s₃ hdiscard => ?_
      exact cascade_avoids rest ((hs₁.keeps hkeeps hmessage).emitted hdiscard) hr h.right
    · refine (hm hs).bind fun _ s₁ hmessage => ?_
      exact cascade_avoids rest (hs.keeps hkeeps hmessage) hr h.right

theorem arguments_avoids (parts : List KeywordPart) (first : Bool)
    {resolve : String → Resolution} {s : State} (hs : s.Resolves resolve)
    (h : env.Avoids identifier resolve (argumentReferences parts) (argumentBlocks env parts)) :
    SameSuccess (arguments env first parts s)
      (arguments (env.withEscape identifier) first parts s) := by
  cases parts with
  | nil => exact .refl anyErrors _
  | cons part rest =>
    obtain ⟨keyword, argument⟩ := part
    rw [arguments, arguments]
    refine Alike.after anyErrors (notePart first _) fun _ s₁ hnote => ?_
    have hs₁ := hs.noted hnote
    cases argument with
    | block parameters body span =>
      have hbody : SameSuccess
          (block env (roleOf env keyword.name) parameters body.answers span
            (sequence env (pushNil env) body) s₁)
          (block env (roleOf env keyword.name) parameters body.answers span
            (sequence (env.withEscape identifier) (pushNil env) body) s₁) := by
        apply Alike.block anyErrors env
        intro s₂ top scopes hscopes htop
        exact sequence_avoids body (pushNil env) hscopes htop h.left.body
      refine hbody.bind fun _ s₂ hblock => ?_
      have hkeeps := keeps_argument env keyword.name (.block parameters body span)
      exact arguments_avoids rest false (hs₁.keeps hkeeps hblock) h.right
    | _ =>
      refine ((receiver_avoids _ hs₁ h.left).asValue _).bind fun _ s₂ hargument => ?_
      have hs₂ := hs₁.keeps (keeps_asValue env _ (keeps_receiver env _)) hargument
      exact arguments_avoids rest false hs₂ h.right

theorem sequence_avoids (body : Sequence) (whenEmpty : Compile Unit) {parameters : List Ident}
    {s : State} {top : Scope} {rest : List Scope} (hs : s.scopes = ⟨top :: rest⟩)
    (htop : top.Declares parameters [])
    (h : env.Avoids identifier (lookup parameters body.temporaries)
      (body.statements.flatMap Statement.references) (body.blocks env)) :
    SameSuccess (sequence env whenEmpty body s)
      (sequence (env.withEscape identifier) whenEmpty body s) := by
  obtain ⟨temporaries, ss, span⟩ := body
  rw [Compile.sequence, Compile.sequence]
  apply Alike.sequenceWith anyErrors env hs htop rfl
  intro s₁ hs₁
  exact statements_avoids ss hs₁ h

theorem statements_avoids (ss : List Statement) {resolve : String → Resolution} {s : State}
    (hs : s.Resolves resolve)
    (h : env.Avoids identifier resolve (ss.flatMap Statement.references)
      (statementBlocks env ss)) :
    SameSuccess (statements env ss s) (statements (env.withEscape identifier) ss s) := by
  cases ss with
  | nil => exact .refl anyErrors _
  | cons statement rest =>
    rw [List.flatMap_cons] at h
    rw [statements, statements]
    split_ifs
    · trivial
    · refine (statement_avoids statement rest.isEmpty hs h.left).bind fun _ s₁ hstatement => ?_
      exact statements_avoids rest (hs.keeps (keeps_statement env _ _) hstatement) h.right

theorem statement_avoids (statement : Statement) (isLast : Bool) {resolve : String → Resolution}
    {s : State} (hs : s.Resolves resolve)
    (h : env.Avoids identifier resolve statement.references (statement.blocks env)) :
    SameSuccess (Compile.statement env isLast statement s)
      (Compile.statement (env.withEscape identifier) isLast statement s) := by
  cases statement with
  | expression value =>
    rw [Compile.statement, Compile.statement]
    apply Alike.statementWith anyErrors env
    intro s₁ hscopes
    exact (receiver_avoids value (hs.of_scopes hscopes) h).asValue value.span
  | answer value span =>
    rw [Compile.statement, Compile.statement]
    apply Alike.statementWith anyErrors env
    intro s₁ hscopes
    apply Alike.answerWith anyErrors
    intro s₂ hscopes'
    exact (receiver_avoids value ((hs.of_scopes hscopes).of_scopes hscopes') h).asValue value.span

end

theorem script_avoids {script : Script} (hown : script.EscapeFree env)
    (hother : script.EscapeFree (env.withEscape identifier)) :
    SameSuccess
      (Compile.script env script (State.initial env))
      (Compile.script (env.withEscape identifier) script
        (State.initial (env.withEscape identifier))) := by
  obtain ⟨hother, hblocks⟩ := hother
  rw [Sequence.blocks_withEscape] at hblocks
  have havoids : env.Avoids identifier (lookup [] script.body.temporaries)
      (script.body.statements.flatMap Statement.references) (script.body.blocks env) :=
    ⟨hown.1, hother, fun literal hl => ⟨hown.2 literal hl, hblocks literal hl⟩⟩
  unfold Compile.script
  refine Alike.after anyErrors pushScope fun _ s hpush => ?_
  cases hpush
  apply Alike.andThen anyErrors
  exact sequence_avoids script.body pushReceiver rfl Scope.declares_empty havoids

/-- Without free references to either identifier it makes no difference which of them escapes. -/
theorem generate_withEscape {script : Script} (hown : script.EscapeFree env)
    (hother : script.EscapeFree (env.withEscape identifier)) (g : Generated) :
    generate env script = .ok g ↔ generate (env.withEscape identifier) script = .ok g := by
  have hsame := script_avoids hown hother
  unfold generate
  cases hscript : Compile.script env script (State.initial env) with
  | ok method s =>
    cases hscript' : Compile.script (env.withEscape identifier) script
        (State.initial (env.withEscape identifier)) with
    | ok method' s' =>
      rw [hscript, hscript'] at hsame
      obtain ⟨rfl, rfl⟩ := hsame
      rfl
    | error e' s' =>
      rw [hscript, hscript'] at hsame
      exact hsame.elim
  | error e s =>
    cases hscript' : Compile.script (env.withEscape identifier) script
        (State.initial (env.withEscape identifier)) with
    | ok method' s' =>
      rw [hscript, hscript'] at hsame
      exact hsame.elim
    | error e' s' => simp

end

section

variable {env : Env}

variable (env) in
/-- A message is sent by a call right behind its selector. -/
def Sending.SpelledBy (s : Sending) (piece : List Instruction) : Prop :=
  piece = [.constant (.string s.message.selector), s.call env]

theorem forall₂_append_left {α β : Type} {R : α → β → Prop} {xs ys : List α} {zs : List β}
    (h : List.Forall₂ R (xs ++ ys) zs) :
    ∃ zs₁ zs₂, List.Forall₂ R xs zs₁ ∧ List.Forall₂ R ys zs₂ ∧ zs = zs₁ ++ zs₂ :=
  ⟨_, _, (List.forall₂_take_append _ _ _ h.flip).flip, (List.forall₂_drop_append _ _ _ h.flip).flip,
    (List.take_append_drop _ _).symm⟩

/-- What the first part of some code sends. -/
theorem forall₂_madeAt_left {front more : List Instruction} {sent : List Sending}
    (h : List.Forall₂ (fun x s => s.MadeAt env (front ++ more) x.2)
      (front.zipIdx.filter fun x => x.1.isSend) sent) :
    List.Forall₂ (fun x s => s.MadeAt env front x.2)
      (front.zipIdx.filter fun x => x.1.isSend) sent := by
  have hboth := (List.forall₂_and_left _ _).2 ⟨fun x hx => List.mem_of_mem_filter hx, h⟩
  apply hboth.imp
  rintro x s ⟨hx, hcall, hselector, hline⟩
  have hlt : x.2 < front.length := List.snd_lt_of_mem_zipIdx hx
  rw [List.getElem?_append_left hlt] at hcall
  rw [List.take_append_of_le_length hlt.le] at hselector hline
  exact ⟨hcall, hselector, hline⟩

/-- Where every call stands right behind its selector, the code spells out the messages. -/
theorem spells_of_madeAt {code : List Instruction} {sent : List Sending}
    (h : List.Forall₂ (fun x s => s.MadeAt env code x.2)
      (code.zipIdx.filter fun x => x.1.isSend) sent) :
    Spells (fun i => i.isSend = false) (Sending.SpelledBy env) code sent := by
  -- From the end: the last instruction sends nothing, or it is the last call, with its selector.
  induction hn : code.length using Nat.strong_induction_on generalizing code sent with
  | _ n ih =>
    subst hn
    rcases List.eq_nil_or_concat' code with rfl | ⟨front, i, rfl⟩
    · cases h
      exact .nil
    · rw [List.zipIdx_append, List.filter_append, Nat.zero_add] at h
      obtain ⟨early, last, hearly, hlast, rfl⟩ := forall₂_append_left h
      cases hi : i.isSend with
      | false =>
        have hfront := ih _ (by simp) (forall₂_madeAt_left hearly) rfl
        simp only [List.zipIdx_singleton, List.filter_cons, hi, Bool.false_eq_true, ↓reduceIte,
          List.filter_nil, List.forall₂_nil_left_iff] at hlast
        rw [hlast]
        exact hfront.append (.none (List.forall_mem_singleton.2 hi))
      | true =>
        simp only [List.zipIdx_singleton, List.filter_cons, hi, ↓reduceIte, List.filter_nil,
          List.forall₂_cons_left_iff, List.forall₂_nil_left_iff] at hlast
        obtain ⟨s, none, ⟨hcall, hselector, -⟩, rfl, rfl⟩ := hlast
        rw [List.take_left] at hselector
        obtain ⟨before, rfl⟩ := List.getLast?_eq_some_iff.1 hselector
        have hi : i = s.call env := by simpa using hcall
        have hbefore : List.Forall₂ (fun x s => s.MadeAt env before x.2)
            (before.zipIdx.filter fun x => x.1.isSend) early := by
          have hpush : (Instruction.constant (.string s.message.selector)).isSend = false := rfl
          rw [List.zipIdx_append, List.filter_append, List.append_assoc] at hearly
          simp only [List.zipIdx_singleton, List.filter_cons, hpush, Bool.false_eq_true,
            ↓reduceIte, List.filter_nil, List.append_nil] at hearly
          exact forall₂_madeAt_left hearly
        rw [List.append_assoc, hi]
        exact (ih _ (by simp) hbefore rfl).append (.one rfl)

/-- With source lines, the method of a sequence without escapes spells out its messages. -/
theorem MethodBody.Realizes.spells {b : MethodBody} {parameters : List Ident} {body : Sequence}
    (h : b.Realizes env parameters body) (hfree : body.EscapeFree env parameters)
    (hchecked : body.Checked env parameters) (hlines : env.settings.lineNumbers = true) :
    Spells (fun i => i.isSend = false) (Sending.SpelledBy env) b.instructions
      (body.sendings false) := by
  obtain ⟨whenEmpty, names, k, locals, hempty, hfinish⟩ := h
  have hquiet : ∀ op ∈ whenEmpty, op.Quiet := by
    rcases hempty with rfl | rfl
    · simp [Operation.Quiet]
    · exact Operation.quiet_nilOperations env
  exact spells_of_madeAt (Sequence.traced hfree hchecked hlines hquiet hfinish).sends

theorem Script.EscapeFree.bodies {script : Script} (h : script.EscapeFree env) :
    ∀ body ∈ script.bodies env, body.2.EscapeFree env body.1 :=
  Script.forall_mem_bodies.2 h

theorem Script.bodies_withoutLines (script : Script) :
    script.bodies env.withoutLines = script.bodies env := by
  have hblocks : script.body.blocks env.withoutLines = script.body.blocks env := by
    delta Sequence.blocks
    rfl
  rw [Script.bodies, Script.bodies, hblocks]

variable {script : Script} {g : Generated}

theorem generate_spells_lined (hg : generate env script = .ok g) (hfree : script.EscapeFree env)
    (hlines : env.settings.lineNumbers = true) :
    List.Forall₂ (fun m body => Spells (fun i => i.isSend = false) (Sending.SpelledBy env)
      m.body.instructions (body.2.sendings false)) (g.sendMessages :: g.blocks)
      (script.bodies env) := by
  apply (generate_realizes hg).imp
  rintro m body ⟨hmem, hrealizes⟩
  exact hrealizes.spells (hfree.bodies body hmem) (generate_checks hg body hmem) hlines

/-- The methods of a script without escapes spell out its messages, each method those of its own
sequence. -/
theorem generate_spells (hg : generate env script = .ok g) (hfree : script.EscapeFree env) :
    List.Forall₂ (fun m body => Spells (fun i => i.isSend = false) (Sending.SpelledBy env)
      m.body.instructions (body.2.sendings false)) (g.sendMessages :: g.blocks)
      (script.bodies env) := by
  cases hlines : env.settings.lineNumbers with
  | true => exact generate_spells_lined hg hfree hlines
  | false =>
    -- The same code with source lines, which are then left out.
    obtain ⟨lined, hlined⟩ : ∃ lined : Env, lined =
      { env with settings := { env.settings with lineNumbers := true } } := ⟨_, rfl⟩
    have herased : lined.withoutLines = env := by
      rw [hlined, Env.withoutLines, ← hlines]
    rw [← herased, generate_erases] at hg
    cases hgenerate : generate lined script with
    | error e =>
      rw [hgenerate] at hg
      cases hg
    | ok g' =>
      rw [hgenerate] at hg
      cases hg
      have hbodies : script.bodies env = script.bodies lined := by
        rw [← herased, Script.bodies_withoutLines]
      have hfree' : script.EscapeFree lined := by
        refine Script.forall_mem_bodies.1 fun body hbody => ?_
        rw [← hbodies] at hbody
        have hbody := hfree.bodies body hbody
        subst hlined
        exact hbody
      have hspells := generate_spells_lined hgenerate hfree' (by rw [hlined])
      rw [hbodies]
      change List.Forall₂ _ ((g'.sendMessages :: g'.blocks).map Method.withoutLines) _
      rw [List.forall₂_map_left_iff]
      apply hspells.imp
      intro m body h
      subst hlined
      refine h.filter _ ?_
      rintro s piece rfl i hi
      rcases List.mem_pair.1 hi with rfl | rfl <;> rfl

end

/-- How an expression stands: its value is taken, or it is sent messages. -/
inductive Standing where
  | value
  | receiver (messages : List Message)

mutual

/-- The references in an expression, outside of the blocks in it, each with how it stands. -/
def Expr.standings (standing : Standing) : Expr → List (String × Standing)
  | .literal .. | .pseudo .. | .block .. | .primitive .. => []
  | .reference name _ => [(name, standing)]
  | .send target m _ => target.standings (.receiver [m]) ++ m.standings
  | .cascade target messages _ =>
    target.standings (.receiver messages) ++ messageStandings messages
  | .assign _ value _ => value.standings .value
  | .paren inner _ => inner.standings .value

def Message.standings : Message → List (String × Standing)
  | .unary _ => []
  | .binary _ argument _ => argument.standings .value
  | .keyword parts _ => argumentStandings parts

def messageStandings : List Message → List (String × Standing)
  | [] => []
  | m :: rest => m.standings ++ messageStandings rest

def argumentStandings : List KeywordPart → List (String × Standing)
  | [] => []
  | ⟨_, argument⟩ :: rest => argument.standings .value ++ argumentStandings rest

end

def Sequence.standings (body : Sequence) : List (String × Standing) :=
  body.statements.flatMap fun statement => statement.value.standings .value

mutual

theorem Expr.map_fst_standings (e : Expr) (standing : Standing) :
    (e.standings standing).map Prod.fst = e.references := by
  cases e with
  | literal | pseudo | reference | block | primitive => rfl
  | send target m span =>
    rw [Expr.standings, Expr.references, List.map_append, target.map_fst_standings,
      m.map_fst_standings]
  | cascade target messages span =>
    rw [Expr.standings, Expr.references, List.map_append, target.map_fst_standings,
      map_fst_messageStandings]
  | assign target value span => exact value.map_fst_standings .value
  | paren inner span => exact inner.map_fst_standings .value

theorem Message.map_fst_standings (m : Message) : m.standings.map Prod.fst = m.references := by
  cases m with
  | unary selector => rfl
  | binary selector argument span => exact argument.map_fst_standings .value
  | keyword parts span => exact map_fst_argumentStandings parts

theorem map_fst_messageStandings (messages : List Message) :
    (messageStandings messages).map Prod.fst = messageReferences messages := by
  cases messages with
  | nil => rfl
  | cons m rest =>
    rw [messageStandings, messageReferences, List.map_append, m.map_fst_standings,
      map_fst_messageStandings rest]

theorem map_fst_argumentStandings (parts : List KeywordPart) :
    (argumentStandings parts).map Prod.fst = argumentReferences parts := by
  cases parts with
  | nil => rfl
  | cons part rest =>
    obtain ⟨keyword, argument⟩ := part
    rw [argumentStandings, argumentReferences, List.map_append, argument.map_fst_standings,
      map_fst_argumentStandings rest]

end

/-- No reference of a sequence is missed. -/
theorem Sequence.map_fst_standings (body : Sequence) :
    body.standings.map Prod.fst = body.statements.flatMap Statement.references := by
  rw [Sequence.standings, List.map_flatMap]
  congr 1
  funext statement
  cases statement with
  | expression value | answer value span => exact value.map_fst_standings .value

def Message.IsDirective : Message → Prop
  | .keyword parts _ => (Directive.ofSelector? (selectorOf parts)).isSome = true
  | _ => False

def Standing.Directs (standing : Standing) : Prop :=
  ∃ messages, standing = .receiver messages ∧ messages ≠ [] ∧ ∀ m ∈ messages, m.IsDirective

section

variable {env : Env}

theorem Message.Compiles.isDirective {m : Message} {resolve : String → Resolution}
    (h : m.Compiles env resolve .escape) : m.IsDirective := by
  cases m with
  | unary selector => exact absurd rfl h.unary
  | binary selector argument span => exact absurd rfl h.binary.1
  | keyword parts span =>
    obtain ⟨kind, arguments, hkind, -⟩ := h.directive
    rw [IsDirective, hkind]
    rfl

/-- The arguments of a directive are literals. -/
theorem argumentStandings_of_directive {name : String} {parts : List KeywordPart}
    {arguments : List String} (h : parts.mapM (directiveArgument name) = .ok arguments) :
    argumentStandings parts = [] := by
  have hparts := except_mapM_ok h
  clear h
  induction hparts with
  | nil => rfl
  | @cons part text parts texts hpart _ ih =>
    obtain ⟨keyword, argument⟩ := part
    cases argument with
    | literal kind text span => exact ih
    | _ => cases hpart

variable (env) in
def Env.Escapes (resolve : String → Resolution) (name : String) : Prop :=
  resolve name = .unresolved ∧ name = env.settings.escapeIdentifier

variable {resolve : String → Resolution}

mutual

theorem Expr.Compiles.directs {e : Expr} (h : e.Compiles env resolve) {standing : Standing}
    (hstanding : e.asReceiver env resolve = .escape → standing.Directs) :
    ∀ x ∈ e.standings standing, env.Escapes resolve x.1 → x.2.Directs := by
  cases e with
  | literal | pseudo | block | primitive => simp [Expr.standings]
  | reference name span =>
    refine List.forall_mem_singleton.2 fun hescapes => hstanding ?_
    exact if_pos hescapes
  | send target m span =>
    obtain ⟨htarget, hm⟩ := h.send
    refine List.forall_mem_append.2 ⟨htarget.directs fun hr => ?_, hm.directs⟩
    rw [hr] at hm
    exact ⟨[m], rfl, by simp, List.forall_mem_singleton.2 hm.isDirective⟩
  | cascade target messages span =>
    obtain ⟨hsome, htarget, s, s', hs, hcascade⟩ := h.cascade
    have hmessages := hs.cascade hcascade
    refine List.forall_mem_append.2 ⟨htarget.directs fun hr => ?_, cascade_directs hmessages⟩
    rw [hr] at hmessages
    exact ⟨messages, rfl, hsome, fun m hm => (hmessages m hm).isDirective⟩
  | assign target value span =>
    obtain ⟨-, hvalue⟩ := h.assign
    exact hvalue.compiles.directs fun hr => absurd hr hvalue.value
  | paren inner span =>
    exact h.inner.compiles.directs fun hr => absurd hr h.inner.value

theorem Message.Compiles.directs {m : Message} {r : Receiver} (h : m.Compiles env resolve r) :
    ∀ x ∈ m.standings, env.Escapes resolve x.1 → x.2.Directs := by
  cases m with
  | unary selector => simp [Message.standings]
  | binary selector argument span =>
    obtain ⟨-, hargument⟩ := h.binary
    exact hargument.compiles.directs fun hr => absurd hr hargument.value
  | keyword parts span =>
    by_cases hr : r = .escape
    · subst hr
      obtain ⟨kind, arguments, -, harguments, -⟩ := h.directive
      simp [Message.standings, argumentStandings_of_directive harguments]
    · exact arguments_directs (h.arguments hr)

theorem cascade_directs {messages : List Message} {r : Receiver}
    (h : ∀ m ∈ messages, m.Compiles env resolve r) :
    ∀ x ∈ messageStandings messages, env.Escapes resolve x.1 → x.2.Directs := by
  cases messages with
  | nil => simp [messageStandings]
  | cons m rest =>
    obtain ⟨hm, hrest⟩ := List.forall_mem_cons.1 h
    exact List.forall_mem_append.2 ⟨hm.directs, cascade_directs hrest⟩

theorem arguments_directs {parts : List KeywordPart}
    (h : ∀ part ∈ parts, part.argument.IsArgument env resolve) :
    ∀ x ∈ argumentStandings parts, env.Escapes resolve x.1 → x.2.Directs := by
  cases parts with
  | nil => simp [argumentStandings]
  | cons part rest =>
    obtain ⟨hpart, hrest⟩ := List.forall_mem_cons.1 h
    have hothers := arguments_directs hrest
    obtain ⟨keyword, argument⟩ := part
    cases argument with
    | block parameters body span => exact hothers
    | _ =>
      refine List.forall_mem_append.2 ⟨?_, hothers⟩
      exact hpart.compiles.directs fun hr => absurd hr hpart.value

end

/-- In a sequence that compiles, free references to the escape identifier are sent directives. -/
theorem Sequence.Compiles.directs {body : Sequence} {parameters : List Ident}
    (h : body.Compiles env parameters) :
    ∀ x ∈ body.standings, env.Escapes (lookup parameters body.temporaries) x.1 → x.2.Directs := by
  intro x hx
  obtain ⟨statement, hstatement, hx⟩ := List.mem_flatMap.1 hx
  have hvalue := h.statements statement hstatement
  exact hvalue.compiles.directs (fun hr => absurd hr hvalue.value) x hx

end

/-- Directives come from free references to the escape identifier and from nothing else.

A script without free references to either of two identifiers becomes the same methods, blocks and
markers under both, or nothing under either; and all its messages are sent by their own selectors,
whatever these are, each by the method of the sequence that it stands in.

In a script that compiles, a free reference to the escape identifier is the receiver of one keyword
message or of a cascade of keyword messages, and their selectors are those of directives. -/
theorem generate_escapes_by_identifier {env : Env} {script : Script} (identifier : String) :
    (script.EscapeFree env → script.EscapeFree (env.withEscape identifier) →
      (∀ g, generate env script = .ok g ↔ generate (env.withEscape identifier) script = .ok g) ∧
      ∀ g, generate env script = .ok g →
        (script.body.sendings true).Perm
          ((script.bodies env).flatMap fun body => body.2.sendings false) ∧
        List.Forall₂ (fun m body => Spells (fun i => i.isSend = false) (Sending.SpelledBy env)
          m.body.instructions (body.2.sendings false)) (g.sendMessages :: g.blocks)
          (script.bodies env)) ∧
    ∀ g, generate env script = .ok g → ∀ body ∈ script.bodies env,
      body.2.standings.map Prod.fst = body.2.statements.flatMap Statement.references ∧
      ∀ x ∈ body.2.standings,
        env.Escapes (lookup body.1 body.2.temporaries) x.1 → x.2.Directs := by
  refine ⟨fun hown hother => ⟨generate_withEscape hown hother, fun g hg => ⟨?_, ?_⟩⟩,
    fun g hg body hbody => ⟨body.2.map_fst_standings, ?_⟩⟩
  · rw [Script.bodies, List.flatMap_cons, List.flatMap_map]
    exact script.body.gathers env
  · exact generate_spells hg hown
  · exact (generate_compiles hg body hbody).directs

namespace Sample

/-- Sends the receiver a message with the selector of a directive. -/
def loadFromSelf : Message := .keyword (parts [("argLoad:", "3")]) span

def loadsFromSelf : Script :=
  ⟨⟨[], [.expression (.send (.pseudo .self span) loadFromSelf span)], span⟩, span⟩

theorem escapeFree_loadsFromSelf (env : Env) : loadsFromSelf.EscapeFree env := by
  constructor
  · intro name hname
    cases hname
  · intro literal hl
    cases hl

end Sample

theorem escapes_of_samples :
    (∃ g, generate Sample.env Sample.loadsFromSelf = .ok g ∧
      generate (Sample.env.withEscape "VM") Sample.loadsFromSelf = .ok g ∧
      [.constant (.string "argLoad:"), Sending.call Sample.env ⟨Sample.loadFromSelf, false⟩] <:+:
        g.sendMessages.body.instructions) ∧
    ∃ g, generate Sample.env Sample.directives = .ok g ∧
      Standing.Directs (.receiver Sample.loadAndCall) := by
  constructor
  · have hok : (generate Sample.env Sample.loadsFromSelf).isOk = true := by decide +kernel
    obtain ⟨g, hg⟩ := exists_ok_of_isOk hok
    obtain ⟨hsame, hspells⟩ := (generate_escapes_by_identifier "VM").1
      (Sample.escapeFree_loadsFromSelf Sample.env) (Sample.escapeFree_loadsFromSelf _)
    obtain ⟨-, hmethods⟩ := hspells g hg
    obtain ⟨body, rest, hfirst, -, hbodies⟩ := List.forall₂_cons_left_iff.1 hmethods
    cases hbodies
    obtain ⟨piece, rfl, hinfix⟩ := hfirst.exists_infix (List.mem_singleton_self _)
    exact ⟨g, hg, (hsame g).1 hg, hinfix⟩
  · obtain ⟨g, hg⟩ := Sample.generates_directives
    refine ⟨g, hg, ?_⟩
    obtain ⟨-, hdirects⟩ := (generate_escapes_by_identifier "VM").2 g hg
      ([], Sample.directives.body) List.mem_cons_self
    exact hdirects ("JVM", _) (List.mem_singleton_self _) ⟨rfl, rfl⟩

end SmalltalkJvm
