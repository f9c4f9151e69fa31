import SmalltalkJvm.Proofs.Constituents

/-! # What is checked of a script

Two rules of a script do not show in its code. A directive has no blocks among its arguments, which
are literals, and an answer is the last statement of its sequence. Both hold of every script that
compiles, in its own statements and in those of its blocks.
-/

namespace SmalltalkJvm

open Compile

variable (env : Env)

mutual

def Expr.Checked (resolve : String → Resolution) : Expr → Prop
  | .literal .. | .pseudo .. | .reference .. | .primitive .. => True
  | .block parameters body _ => body.Checked parameters
  | .send target m _ => target.Checked resolve ∧ m.Checked resolve (target.asReceiver env resolve)
  | .cascade target messages _ =>
    target.Checked resolve ∧ messagesChecked resolve (target.asReceiver env resolve) messages
  | .assign _ value _ => value.Checked resolve
  | .paren inner _ => inner.Checked resolve

def Message.Checked (resolve : String → Resolution) (r : Receiver) : Message → Prop
  | .unary _ => True
  | .binary _ argument _ => argument.Checked resolve
  | .keyword parts _ =>
    (r = .escape → argumentBlocks env parts = []) ∧ (r ≠ .escape → argumentsChecked resolve parts)

def messagesChecked (resolve : String → Resolution) (r : Receiver) : List Message → Prop
  | [] => True
  | m :: rest => m.Checked resolve r ∧ messagesChecked resolve r rest

def argumentsChecked (resolve : String → Resolution) : List KeywordPart → Prop
  | [] => True
  | ⟨_, argument⟩ :: rest => argument.Checked resolve ∧ argumentsChecked resolve rest

def Sequence.Checked (parameters : List Ident) : Sequence → Prop
  | ⟨temporaries, ss, _⟩ => statementsChecked (lookup parameters temporaries) ss

def statementsChecked (resolve : String → Resolution) : List Statement → Prop
  | [] => True
  | s :: rest =>
    (s.isAnswer = true → rest = []) ∧ s.Checked resolve ∧ statementsChecked resolve rest

def Statement.Checked (resolve : String → Resolution) : Statement → Prop
  | .expression value | .answer value _ => value.Checked resolve

end

section

variable {env}

mutual

theorem Expr.checked (e : Expr) {resolve : String → Resolution} (h : e.Compiles env resolve) :
    e.Checked env resolve := by
  cases e with
  | literal | pseudo | reference | primitive => trivial
  | block parameters body span => exact body.checked h.body
  | send target m span =>
    obtain ⟨htarget, hm⟩ := h.send
    exact ⟨target.checked htarget, m.checked hm⟩
  | cascade target messages span =>
    obtain ⟨-, htarget, s, s', hs, hcascade⟩ := h.cascade
    exact ⟨target.checked htarget, messages_checked messages (hs.cascade hcascade)⟩
  | assign target value span => exact value.checked h.assign.2.compiles
  | paren inner span => exact inner.checked h.inner.compiles

theorem Message.checked (m : Message) {resolve : String → Resolution} {r : Receiver}
    (h : m.Compiles env resolve r) : m.Checked env resolve r := by
  cases m with
  | unary selector => trivial
  | binary selector argument span => exact argument.checked h.binary.2.compiles
  | keyword parts span =>
    refine ⟨fun hr => ?_, fun hr => arguments_checked parts (h.arguments hr)⟩
    subst hr
    obtain ⟨kind, arguments, -, harguments, -⟩ := h.directive
    exact argumentBlocks_of_directive env harguments

theorem messages_checked (messages : List Message) {resolve : String → Resolution} {r : Receiver}
    (h : ∀ m ∈ messages, m.Compiles env resolve r) : messagesChecked env resolve r messages := by
  cases messages with
  | nil => trivial
  | cons m rest =>
    obtain ⟨hm, hrest⟩ := List.forall_mem_cons.1 h
    exact ⟨m.checked hm, messages_checked rest hrest⟩

theorem arguments_checked (parts : List KeywordPart) {resolve : String → Resolution}
    (h : ∀ part ∈ parts, part.argument.IsArgument env resolve) :
    argumentsChecked env resolve parts := by
  cases parts with
  | nil => trivial
  | cons part rest =>
    obtain ⟨hpart, hrest⟩ := List.forall_mem_cons.1 h
    obtain ⟨keyword, argument⟩ := part
    cases argument with
    | block parameters body span => exact ⟨body.checked hpart, arguments_checked rest hrest⟩
    | _ => exact ⟨Expr.checked _ hpart.compiles, arguments_checked rest hrest⟩

theorem Sequence.checked (body : Sequence) {parameters : List Ident}
    (h : body.Compiles env parameters) : body.Checked env parameters := by
  obtain ⟨temporaries, ss, span⟩ := body
  obtain ⟨s, s', hs, hstatements⟩ := h.run_statements
  exact statements_checked ss hs hstatements

theorem statements_checked (ss : List Statement) {resolve : String → Resolution} {s s' : State}
    (hs : s.Resolves resolve) (h : statements env ss s = .ok () s') :
    statementsChecked env resolve ss := by
  cases ss with
  | nil => trivial
  | cons statement rest =>
    obtain ⟨hlast, s₁, hstatement, hrest⟩ := statements_cons_ok env h
    have hs₁ := hs.keeps (keeps_statement env _ statement) hstatement
    have hvalue := (hs.statement hstatement).compiles
    refine ⟨hlast, ?_, statements_checked rest hs₁ hrest⟩
    cases statement with
    | expression value | answer value span => exact value.checked hvalue

end

end

variable {script : Script} {g : Generated}

/-- A script that compiles follows the rules. -/
theorem generate_checks {env : Env} (h : generate env script = .ok g) :
    ∀ body ∈ script.bodies env, body.2.Checked env body.1 :=
  fun body hbody => body.2.checked (generate_compiles h body hbody)

theorem generate_checked (h : generate env script = .ok g) : script.body.Checked env [] :=
  (Script.forall_mem_bodies.1 (generate_checks h)).1

theorem generate_checked_blocks (h : generate env script = .ok g) :
    ∀ literal ∈ script.body.blocks env, literal.body.Checked env literal.parameters :=
  (Script.forall_mem_bodies.1 (generate_checks h)).2

end SmalltalkJvm
