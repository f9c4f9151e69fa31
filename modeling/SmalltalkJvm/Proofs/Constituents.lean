import SmalltalkJvm.Proofs.Congruence

/-! # Constituents of what compiles

A construct that compiles is made of constructs that compile, each where names resolve as they do in
its method. There is one lemma for each way to put a construct together. They also say what is
checked on the way: what has to leave a value is not the escape identifier, which understands
nothing but directives, and only temporaries are assigned to.
-/

namespace SmalltalkJvm

open Compile

variable (env : Env)

/-- What is compiled inside a region is compiled with the same scopes. -/
theorem inRegion_action {wanted : Bool} {span : Span} {action : Compile Unit} {s s' : State}
    (h : inRegion env wanted span action s = .ok () s') :
    ∃ s₁ s₂, s₁.scopes = s.scopes ∧ action s₁ = .ok () s₂ := by
  cases wanted with
  | false => exact ⟨s, s', rfl, h⟩
  | true =>
    obtain ⟨⟨⟩, opened, hopen, h⟩ := bind_ok h
    cases hopen
    obtain ⟨⟨⟩, inner, hinner, -⟩ := bind_ok h
    exact ⟨s.opened span, inner, rfl, hinner⟩

theorem statementWith_action {isLast : Bool} {span : Span} {action : Compile Unit} {s s' : State}
    (h : statementWith env isLast span action s = .ok () s') :
    ∃ s₁ s₂, s₁.scopes = s.scopes ∧ action s₁ = .ok () s₂ := by
  obtain ⟨closed, hregion, -⟩ := statementWith_ok env h
  exact inRegion_action env hregion

/-- The expression is compiled somewhere in a method in which names resolve as given. -/
def Expr.Compiles (resolve : String → Resolution) (e : Expr) : Prop :=
  ∃ (s : State) (r : Receiver) (s' : State), s.Resolves resolve ∧ receiver env e s = .ok r s'

structure Expr.IsValue (resolve : String → Resolution) (e : Expr) : Prop where
  compiles : e.Compiles env resolve
  value : e.asReceiver env resolve ≠ .escape

def Message.Compiles (resolve : String → Resolution) (r : Receiver) (m : Message) : Prop :=
  ∃ s s' : State, s.Resolves resolve ∧ message env r m s = .ok () s'

/-- The sequence is compiled as the body of a method with the parameters given. -/
def Sequence.Compiles (parameters : List Ident) (body : Sequence) : Prop :=
  ∃ (whenEmpty : Compile Unit) (s : State) (top : Scope) (rest : List Scope) (s' : State),
    s.scopes = ⟨top :: rest⟩ ∧ top.Declares parameters [] ∧
      sequence env whenEmpty body s = .ok () s'

/-- What an argument of a keyword message has to be. A block is compiled in the role of its
keyword. -/
def Expr.IsArgument (resolve : String → Resolution) : Expr → Prop
  | .block parameters body _ => body.Compiles env parameters
  | other => other.IsValue env resolve

def Statement.value : Statement → Expr
  | .expression value | .answer value _ => value

section

variable {env} {resolve : String → Resolution}

theorem State.Resolves.isValue {s s' : State} (hs : s.Resolves resolve) {e : Expr} {span : Span}
    (h : asValue env span (receiver env e) s = .ok () s') : e.IsValue env resolve := by
  obtain ⟨r, s₁, hr, hcheck⟩ := bind_ok h
  obtain ⟨rfl, -⟩ := receiver_grows env e hs hr
  refine ⟨⟨s, _, s₁, hs, hr⟩, fun hescape => ?_⟩
  rw [if_pos hescape] at hcheck
  cases hcheck

theorem block_compiles {role : BlockRole} {parameters : List Ident} {answers : Bool} {span : Span}
    {whenEmpty : Compile Unit} {body : Sequence} {s s' : State}
    (h : block env role parameters answers span (sequence env whenEmpty body) s = .ok () s') :
    body.Compiles env parameters := by
  obtain ⟨name, next, scope, inner, -, hdeclares, hbody, -⟩ := block_entered env h
  exact ⟨_, _, scope, _, inner, rfl, hdeclares, hbody⟩

namespace Expr

theorem Compiles.body {parameters : List Ident} {body : Sequence} {span : Span}
    (h : (Expr.block parameters body span).Compiles env resolve) :
    body.Compiles env parameters := by
  obtain ⟨s, r, s', -, h⟩ := h
  obtain ⟨⟨⟩, s₁, hblock, -⟩ := bind_ok h
  exact block_compiles hblock

theorem Compiles.send {target : Expr} {m : Message} {span : Span}
    (h : (Expr.send target m span).Compiles env resolve) :
    target.Compiles env resolve ∧ m.Compiles env resolve (target.asReceiver env resolve) := by
  obtain ⟨s, r, s', hs, h⟩ := h
  obtain ⟨⟨⟩, s₁, hregion, -⟩ := bind_ok h
  obtain ⟨s₂, s₃, hscopes, haction⟩ := inRegion_action env hregion
  obtain ⟨r', s₄, htarget, hmessage⟩ := bind_ok haction
  have hs₂ := hs.of_scopes hscopes
  obtain ⟨rfl, hgrows⟩ := receiver_grows env target hs₂ htarget
  exact ⟨⟨s₂, _, s₄, hs₂, htarget⟩, s₄, s₃, hs₂.of_scopes hgrows.1, hmessage⟩

theorem Compiles.cascade {target : Expr} {messages : List Message} {span : Span}
    (h : (Expr.cascade target messages span).Compiles env resolve) :
    messages ≠ [] ∧ target.Compiles env resolve ∧
      ∃ s s' : State, s.Resolves resolve ∧
        Compile.cascade env (target.asReceiver env resolve) messages s = .ok () s' := by
  obtain ⟨s, r, s', hs, h⟩ := h
  obtain ⟨hsome, -, r', s₁, htarget, hcascade⟩ := receiver_cascade_ok env h
  obtain ⟨rfl, hgrows⟩ := receiver_grows env target hs htarget
  exact ⟨hsome, ⟨s, _, s₁, hs, htarget⟩, s₁, s', hs.of_scopes hgrows.1, hcascade⟩

theorem Compiles.assign {target : Ident} {value : Expr} {span : Span}
    (h : (Expr.assign target value span).Compiles env resolve) :
    (∃ n, resolve target.name = .temporary n) ∧ value.IsValue env resolve := by
  obtain ⟨s, r, s', hs, h⟩ := h
  obtain ⟨-, n, s₁, hn, hvalue, -⟩ := receiver_assign_ok env h
  exact ⟨⟨n, (hs target.name).symm.trans hn⟩, hs.isValue hvalue⟩

theorem Compiles.inner {inner : Expr} {span : Span}
    (h : (Expr.paren inner span).Compiles env resolve) : inner.IsValue env resolve := by
  obtain ⟨s, r, s', hs, h⟩ := h
  exact hs.isValue (receiver_paren_ok env h).2

end Expr

/-- Every message of a cascade compiles. -/
theorem State.Resolves.cascade {r : Receiver} {messages : List Message} {s s' : State}
    (hs : s.Resolves resolve) (h : cascade env r messages s = .ok () s') :
    ∀ m ∈ messages, m.Compiles env resolve r := by
  induction messages generalizing s with
  | nil => simp
  | cons m rest ih =>
    rw [Compile.cascade] at h
    by_cases hr : r = .escape
    · rw [if_pos hr] at h
      obtain ⟨⟨⟩, s₁, hm, h⟩ := bind_ok h
      have hs₁ := hs.keeps (keeps_message env r m) hm
      exact List.forall_mem_cons.2 ⟨⟨s, s₁, hs, hm⟩, ih hs₁ h⟩
    · rw [if_neg hr] at h
      have hmessage {s₁ s₂ : State} (hs₁ : s₁.Resolves resolve)
          (hm : inRegion env m.isKeyword m.span (message env r m) s₁ = .ok () s₂) :
          m.Compiles env resolve r ∧ s₂.Resolves resolve := by
        obtain ⟨s₃, s₄, hscopes, haction⟩ := inRegion_action env hm
        exact ⟨⟨s₃, s₄, hs₁.of_scopes hscopes, haction⟩,
          hs₁.keeps (keeps_inRegion env _ _ (keeps_message env r m)) hm⟩
      cases rest with
      | nil =>
        obtain ⟨⟨⟩, s₁, hm, -⟩ := bind_ok h
        exact List.forall_mem_singleton.2 (hmessage hs hm).1
      | cons next rest =>
        obtain ⟨⟨⟩, s₁, hdup, h⟩ := bind_ok h
        obtain ⟨⟨⟩, s₂, hm, h⟩ := bind_ok h
        obtain ⟨⟨⟩, s₃, hdiscard, h⟩ := bind_ok h
        obtain ⟨hcompiles, hs₂⟩ := hmessage (hs.emitted hdup) hm
        exact List.forall_mem_cons.2 ⟨hcompiles, ih (hs₂.emitted hdiscard) h⟩

theorem State.Resolves.argument {keyword : String} {e : Expr} {s s' : State}
    (hs : s.Resolves resolve) (h : argument env keyword e s = .ok () s') :
    e.IsArgument env resolve := by
  cases e with
  | block parameters body span => exact block_compiles h
  | _ => exact hs.isValue h

/-- Every argument of a message to a value compiles. -/
theorem State.Resolves.arguments {first : Bool} {parts : List KeywordPart} {s s' : State}
    (hs : s.Resolves resolve) (h : arguments env first parts s = .ok () s') :
    ∀ part ∈ parts, part.argument.IsArgument env resolve := by
  induction parts generalizing first s with
  | nil => simp
  | cons part rest ih =>
    rw [arguments_cons] at h
    obtain ⟨⟨⟩, s₁, hnote, h⟩ := bind_ok h
    obtain ⟨⟨⟩, s₂, hargument, h⟩ := bind_ok h
    have hs₁ := hs.noted hnote
    have hs₂ := hs₁.keeps (keeps_argument env _ _) hargument
    exact List.forall_mem_cons.2 ⟨hs₁.argument hargument, ih hs₂ h⟩

namespace Message

variable {r : Receiver}

theorem Compiles.unary {selector : Ident} (h : (Message.unary selector).Compiles env resolve r) :
    r ≠ .escape := by
  obtain ⟨s, s', -, h⟩ := h
  rintro rfl
  cases h

theorem Compiles.binary {selector : Ident} {argument : Expr} {span : Span}
    (h : (Message.binary selector argument span).Compiles env resolve r) :
    r ≠ .escape ∧ argument.IsValue env resolve := by
  obtain ⟨s, s', hs, h⟩ := h
  obtain ⟨hr, s₁, hargument, -⟩ := message_binary_ok env h
  exact ⟨hr, hs.isValue hargument⟩

theorem Compiles.directive {parts : List KeywordPart} {span : Span}
    (h : (Message.keyword parts span).Compiles env resolve .escape) :
    ∃ kind arguments, Directive.ofSelector? (selectorOf parts) = some kind ∧
      parts.mapM (directiveArgument (selectorOf parts)) = .ok arguments ∧
      kind.Accepts arguments := by
  obtain ⟨s, s', -, h⟩ := h
  obtain ⟨⟨⟩, s₁, -, h⟩ := bind_ok h
  obtain ⟨kind, arguments, hkind, harguments, hdirective⟩ := escape_directive env h
  exact ⟨kind, arguments, hkind, harguments, (directive_ok env hdirective).1⟩

theorem Compiles.arguments {parts : List KeywordPart} {span : Span} (hr : r ≠ .escape)
    (h : (Message.keyword parts span).Compiles env resolve r) :
    ∀ part ∈ parts, part.argument.IsArgument env resolve := by
  obtain ⟨s, s', hs, h⟩ := h
  obtain ⟨s₁, s₂, hopen, harguments, -⟩ := message_keyword_ok env hr h
  have hs₁ : s₁.Resolves resolve := by
    cases hopen
    exact hs.of_scopes rfl
  exact hs₁.arguments harguments

end Message

theorem State.Resolves.statement {statement : Statement} {isLast : Bool} {s s' : State}
    (hs : s.Resolves resolve) (h : Compile.statement env isLast statement s = .ok () s') :
    statement.value.IsValue env resolve := by
  cases statement with
  | expression value =>
    obtain ⟨s₁, s₂, hscopes, haction⟩ := statementWith_action env h
    exact (hs.of_scopes hscopes).isValue haction
  | answer value span =>
    obtain ⟨s₁, s₂, hscopes, haction⟩ := statementWith_action env h
    obtain ⟨⟨⟩, s₃, hline, haction⟩ := bind_ok haction
    obtain ⟨⟨⟩, s₄, hvalue, -⟩ := bind_ok haction
    exact ((hs.of_scopes hscopes).emitted hline).isValue hvalue

theorem State.Resolves.statements {ss : List Statement} {s s' : State} (hs : s.Resolves resolve)
    (h : statements env ss s = .ok () s') :
    ∀ statement ∈ ss, statement.value.IsValue env resolve := by
  induction ss generalizing s with
  | nil => simp
  | cons statement rest ih =>
    obtain ⟨-, s₁, hstatement, h⟩ := statements_cons_ok env h
    have hs₁ := hs.keeps (keeps_statement env _ statement) hstatement
    exact List.forall_mem_cons.2 ⟨hs.statement hstatement, ih hs₁ h⟩

theorem Sequence.Compiles.run_statements {body : Sequence} {parameters : List Ident}
    (h : body.Compiles env parameters) :
    ∃ s s' : State, s.Resolves (lookup parameters body.temporaries) ∧
      Compile.statements env body.statements s = .ok () s' := by
  obtain ⟨temporaries, ss, span⟩ := body
  obtain ⟨whenEmpty, s, top, rest, s', hscopes, htop, h⟩ := h
  obtain ⟨⟨⟩, s₁, hdeclare, h⟩ := bind_ok h
  obtain ⟨top', hdeclares, hs₁⟩ := declareTemporaries_ok env hscopes htop hdeclare
  have hscopes₁ : s₁.scopes = ⟨top' :: rest⟩ := by
    rw [hs₁]
    rfl
  have hresolves := State.resolves_of_declares hscopes₁ hdeclares
  cases ss with
  | nil => exact ⟨s₁, s₁, hresolves, rfl⟩
  | cons first others =>
    obtain ⟨⟨⟩, s₂, hstatements, -⟩ := bind_ok h
    exact ⟨s₁, s₂, hresolves, hstatements⟩

theorem Sequence.Compiles.statements {body : Sequence} {parameters : List Ident}
    (h : body.Compiles env parameters) :
    ∀ statement ∈ body.statements,
      statement.value.IsValue env (lookup parameters body.temporaries) := by
  obtain ⟨s, s', hs, hstatements⟩ := h.run_statements
  exact hs.statements hstatements

end

section

variable {env}

mutual

theorem Expr.compiles_of_mem_blocks (e : Expr) {resolve : String → Resolution}
    (h : e.Compiles env resolve) :
    ∀ literal ∈ e.blocks env, literal.body.Compiles env literal.parameters := by
  cases e with
  | literal | pseudo | reference | primitive => simp [Expr.blocks]
  | block parameters body span =>
    exact List.forall_mem_append.2
      ⟨body.compiles_of_mem_blocks h.body, List.forall_mem_singleton.2 h.body⟩
  | send target m span =>
    obtain ⟨htarget, hm⟩ := h.send
    exact List.forall_mem_append.2
      ⟨target.compiles_of_mem_blocks htarget, m.compiles_of_mem_blocks hm⟩
  | cascade target messages span =>
    obtain ⟨-, htarget, s, s', hs, hcascade⟩ := h.cascade
    exact List.forall_mem_append.2 ⟨target.compiles_of_mem_blocks htarget,
      compiles_of_mem_messageBlocks messages (hs.cascade hcascade)⟩
  | assign target value span => exact value.compiles_of_mem_blocks h.assign.2.compiles
  | paren inner span => exact inner.compiles_of_mem_blocks h.inner.compiles

theorem Message.compiles_of_mem_blocks (m : Message) {resolve : String → Resolution} {r : Receiver}
    (h : m.Compiles env resolve r) :
    ∀ literal ∈ m.blocks env, literal.body.Compiles env literal.parameters := by
  cases m with
  | unary selector => simp [Message.blocks]
  | binary selector argument span => exact argument.compiles_of_mem_blocks h.binary.2.compiles
  | keyword parts span =>
    by_cases hr : r = .escape
    · subst hr
      obtain ⟨kind, arguments, -, harguments, -⟩ := h.directive
      simp [Message.blocks, argumentBlocks_of_directive env harguments]
    · exact compiles_of_mem_argumentBlocks parts (h.arguments hr)

theorem compiles_of_mem_messageBlocks (messages : List Message) {resolve : String → Resolution}
    {r : Receiver} (h : ∀ m ∈ messages, m.Compiles env resolve r) :
    ∀ literal ∈ messageBlocks env messages, literal.body.Compiles env literal.parameters := by
  cases messages with
  | nil => simp [messageBlocks]
  | cons m rest =>
    obtain ⟨hm, hrest⟩ := List.forall_mem_cons.1 h
    exact List.forall_mem_append.2
      ⟨m.compiles_of_mem_blocks hm, compiles_of_mem_messageBlocks rest hrest⟩

theorem compiles_of_mem_argumentBlocks (parts : List KeywordPart) {resolve : String → Resolution}
    (h : ∀ part ∈ parts, part.argument.IsArgument env resolve) :
    ∀ literal ∈ argumentBlocks env parts, literal.body.Compiles env literal.parameters := by
  cases parts with
  | nil => simp [argumentBlocks]
  | cons part rest =>
    obtain ⟨hpart, hrest⟩ := List.forall_mem_cons.1 h
    have hblocks := compiles_of_mem_argumentBlocks rest hrest
    obtain ⟨keyword, argument⟩ := part
    cases argument with
    | block parameters body span =>
      exact List.forall_mem_append.2 ⟨List.forall_mem_append.2
        ⟨body.compiles_of_mem_blocks hpart, List.forall_mem_singleton.2 hpart⟩, hblocks⟩
    | _ =>
      exact List.forall_mem_append.2 ⟨Expr.compiles_of_mem_blocks _ hpart.compiles, hblocks⟩

theorem Sequence.compiles_of_mem_blocks (body : Sequence) {parameters : List Ident}
    (h : body.Compiles env parameters) :
    ∀ literal ∈ body.blocks env, literal.body.Compiles env literal.parameters := by
  obtain ⟨temporaries, ss, span⟩ := body
  exact compiles_of_mem_statementBlocks ss h.statements

theorem compiles_of_mem_statementBlocks (ss : List Statement) {resolve : String → Resolution}
    (h : ∀ statement ∈ ss, statement.value.IsValue env resolve) :
    ∀ literal ∈ statementBlocks env ss, literal.body.Compiles env literal.parameters := by
  cases ss with
  | nil => simp [statementBlocks]
  | cons statement rest =>
    obtain ⟨hvalue, hrest⟩ := List.forall_mem_cons.1 h
    have hblocks := compiles_of_mem_statementBlocks rest hrest
    cases statement with
    | expression value | answer value span =>
      exact List.forall_mem_append.2 ⟨value.compiles_of_mem_blocks hvalue.compiles, hblocks⟩

end

end

section

/-- The sequences that become methods, each with the parameters of its method: the script itself and
its blocks. -/
def Script.bodies (script : Script) : List (List Ident × Sequence) :=
  ([], script.body) ::
    (script.body.blocks env).map fun literal => (literal.parameters, literal.body)

/-- The body of a method has the code of a sequence. -/
def MethodBody.Realizes (b : MethodBody) (parameters : List Ident) (body : Sequence) : Prop :=
  ∃ whenEmpty names k locals, (whenEmpty = [.load 1] ∨ whenEmpty = Draft.nilOperations env) ∧
    ((body.plan env parameters whenEmpty names k).run env (env.method locals)).finish = .ok b

variable {env} {script : Script} {g : Generated}

/-- The generated methods are those of the script's sequences, in their order. -/
theorem generate_realizes (h : generate env script = .ok g) :
    List.Forall₂ (fun m body => body ∈ script.bodies env ∧ m.body.Realizes env body.1 body.2)
      (g.sendMessages :: g.blocks) (script.bodies env) := by
  have houtlined := generate_outlined env h
  have hall : List.Forall₂ (fun m body => m.body.Realizes env body.1 body.2)
      (g.sendMessages :: g.blocks) (script.bodies env) := by
    refine .cons ⟨_, _, _, _, .inl rfl, houtlined.body⟩ ?_
    rw [List.forall₂_map_right_iff, List.forall₂_iff_get]
    refine ⟨houtlined.blocks.length_eq, fun i hm hl => ?_⟩
    have hcompiled := houtlined.blocks.compiled env (List.getElem?_eq_getElem hl)
      (List.getElem?_eq_getElem hm)
    exact ⟨_, _, _, _, .inr rfl, hcompiled.body⟩
  exact ((List.forall₂_and_left _ _).2 ⟨fun body hbody => hbody, hall.flip⟩).flip

theorem Script.forall_mem_bodies {P : List Ident → Sequence → Prop} :
    (∀ body ∈ script.bodies env, P body.1 body.2) ↔
      P [] script.body ∧ ∀ literal ∈ script.body.blocks env, P literal.parameters literal.body := by
  simp [Script.bodies]

/-- Every sequence of a script that compiles is compiled. -/
theorem generate_compiles (h : generate env script = .ok g) :
    ∀ body ∈ script.bodies env, body.2.Compiles env body.1 := by
  obtain ⟨s, b, hsequence, -⟩ := generate_ok env h
  have hbody : script.body.Compiles env [] := ⟨_, _, {}, _, s, rfl, Scope.declares_empty, hsequence⟩
  exact Script.forall_mem_bodies.2 ⟨hbody, script.body.compiles_of_mem_blocks hbody⟩

end

end SmalltalkJvm
