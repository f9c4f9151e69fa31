import SmalltalkJvm.Proofs.LineAttribution
import SmalltalkJvm.Proofs.Meaning
import SmalltalkJvm.Proofs.StackMaps

/-! # Messages and the calls that send them

The messages of a script, each in the method that sends it. Code sends a message by a call of its
own, right behind the selector, and where a method records lines the line that is open there is the
one of the message. Nothing else in the code calls what sends messages.
-/

namespace SmalltalkJvm

open Compile

structure Sending where
  message : Message
  /-- Whether its receiver is `super`. -/
  toSuper : Bool

section

variable (deep : Bool)

mutual

/-- The messages that an expression sends, in the order in which they are sent, with or without
those of the blocks in it. -/
def Expr.sendings : Expr → List Sending
  | .literal .. | .pseudo .. | .reference .. | .primitive .. => []
  | .block _ body _ => if deep then body.sendings else []
  | .send target m _ => target.sendings ++ (m.sendings ++ [⟨m, target.isSuper⟩])
  | .cascade target messages _ => target.sendings ++ cascadeSendings target.isSuper messages
  | .assign _ value _ => value.sendings
  | .paren inner _ => inner.sendings

def Message.sendings : Message → List Sending
  | .unary _ => []
  | .binary _ argument _ => argument.sendings
  | .keyword parts _ => argumentSendings parts

def cascadeSendings (toSuper : Bool) : List Message → List Sending
  | [] => []
  | m :: rest => (m.sendings ++ [⟨m, toSuper⟩]) ++ cascadeSendings toSuper rest

def argumentSendings : List KeywordPart → List Sending
  | [] => []
  | ⟨_, argument⟩ :: rest => argument.sendings ++ argumentSendings rest

def Sequence.sendings : Sequence → List Sending
  | ⟨_, ss, _⟩ => statementSendings ss

def statementSendings : List Statement → List Sending
  | [] => []
  | s :: rest => s.sendings ++ statementSendings rest

def Statement.sendings : Statement → List Sending
  | .expression value | .answer value _ => value.sendings

end

end

/-- All messages are those that a construct sends itself and those that the methods of its blocks
send. -/
def Gathers (all own : List Sending) (literals : List BlockLiteral) : Prop :=
  all.Perm (own ++ literals.flatMap fun literal => literal.body.sendings false)

theorem Gathers.nil : Gathers [] [] [] := List.Perm.refl _

theorem Gathers.append {all₁ all₂ own₁ own₂ : List Sending}
    {literals₁ literals₂ : List BlockLiteral} (h₁ : Gathers all₁ own₁ literals₁)
    (h₂ : Gathers all₂ own₂ literals₂) :
    Gathers (all₁ ++ all₂) (own₁ ++ own₂) (literals₁ ++ literals₂) := by
  rw [Gathers, List.flatMap_append]
  exact (List.Perm.append h₁ h₂).trans (perm_append_exchange ..)

theorem Gathers.send {all own : List Sending} {literals : List BlockLiteral}
    (h : Gathers all own literals) (s : Sending) : Gathers (all ++ [s]) (own ++ [s]) literals := by
  have hboth := h.append (show Gathers [s] [s] [] from List.Perm.refl _)
  rwa [List.append_nil] at hboth

/-- A block sends nothing where it is created. -/
theorem Gathers.block (literal : BlockLiteral) {literals : List BlockLiteral}
    (h : Gathers (literal.body.sendings true) (literal.body.sendings false) literals) :
    Gathers (literal.body.sendings true) [] (literals ++ [literal]) := by
  rw [Gathers, List.nil_append, List.flatMap_append, List.flatMap_singleton]
  exact h.trans List.perm_append_comm

section

variable (env : Env)

mutual

theorem Expr.gathers (e : Expr) : Gathers (e.sendings true) (e.sendings false) (e.blocks env) := by
  cases e with
  | literal | pseudo | reference | primitive => exact .nil
  | block parameters body span =>
    exact Gathers.block ⟨.value, parameters, body, span⟩ body.gathers
  | send target m span => exact target.gathers.append (m.gathers.send _)
  | cascade target messages span => exact target.gathers.append (gathers_cascade messages _)
  | assign target value span => exact value.gathers
  | paren inner span => exact inner.gathers

theorem Message.gathers (m : Message) :
    Gathers (m.sendings true) (m.sendings false) (m.blocks env) := by
  cases m with
  | unary selector => exact .nil
  | binary selector argument span => exact argument.gathers
  | keyword parts span => exact gathers_arguments parts

theorem gathers_cascade (messages : List Message) (toSuper : Bool) :
    Gathers (cascadeSendings true toSuper messages) (cascadeSendings false toSuper messages)
      (messageBlocks env messages) := by
  cases messages with
  | nil => exact .nil
  | cons m rest => exact (m.gathers.send _).append (gathers_cascade rest toSuper)

theorem gathers_arguments (parts : List KeywordPart) :
    Gathers (argumentSendings true parts) (argumentSendings false parts)
      (argumentBlocks env parts) := by
  cases parts with
  | nil => exact .nil
  | cons part rest =>
    obtain ⟨keyword, argument⟩ := part
    have hargument := argument.gathers
    cases argument with
    | block parameters body span =>
      exact (Gathers.block ⟨roleOf env keyword.name, parameters, body, span⟩ body.gathers).append
        (gathers_arguments rest)
    | _ => exact hargument.append (gathers_arguments rest)

theorem Sequence.gathers (s : Sequence) :
    Gathers (s.sendings true) (s.sendings false) (s.blocks env) := by
  obtain ⟨temporaries, ss, span⟩ := s
  exact gathers_statements ss

theorem gathers_statements (ss : List Statement) :
    Gathers (statementSendings true ss) (statementSendings false ss) (statementBlocks env ss) := by
  cases ss with
  | nil => exact .nil
  | cons s rest => exact s.gathers.append (gathers_statements rest)

theorem Statement.gathers (s : Statement) :
    Gathers (s.sendings true) (s.sendings false) (s.blocks env) := by
  cases s with
  | expression value => exact value.gathers
  | answer value span => exact value.gathers

end

end

def Instruction.isSend : Instruction → Bool
  | invoke _ method => method.name == "perform" || method.name == "superPerform"
  | _ => false

namespace Operation

def Quiet : Operation → Prop
  | invokeVirtual method | invokeStatic method =>
    method.name ≠ "perform" ∧ method.name ≠ "superPerform"
  | _ => True

theorem Quiet.isSend {op : Operation} (h : op.Quiet) : op.instruction.isSend = false := by
  cases op with
  | int value =>
    change (Draft.intInstruction value).isSend = false
    unfold Draft.intInstruction
    split
    · rfl
    · split_ifs <;> rfl
  | invokeVirtual method | invokeStatic method =>
    simpa [instruction, Instruction.isSend, Quiet] using h
  | _ => rfl

variable (env : Env)

theorem quiet_nilOperations : ∀ op ∈ Draft.nilOperations env, op.Quiet := by
  simp [Draft.nilOperations, Quiet]

theorem quiet_literal (kind : LiteralKind) (text : String) :
    ∀ op ∈ literal env kind text, op.Quiet := by
  cases kind <;> simp [literal, object, Quiet, literalFactory]

theorem quiet_pseudo (word : Pseudo) : ∀ op ∈ pseudo env word, op.Quiet := by
  cases word <;> simp [pseudo, fixed, object, Quiet]

theorem quiet_reference (name : String) (resolution : Resolution) :
    ∀ op ∈ reference env name resolution, op.Quiet := by
  cases resolution <;> simp [reference, slot, global, context, object, Quiet]

theorem quiet_assign (n : UInt16) : ∀ op ∈ assign env n, op.Quiet := by
  simp [assign, Quiet]

theorem quiet_declarations (temporaries : List Ident) :
    ∀ op ∈ declarations env temporaries, op.Quiet := by
  cases temporaries <;> simp [declarations, initTemporaries, context, Quiet]

theorem quiet_block (literal : BlockLiteral) (name : String) :
    ∀ op ∈ block env literal name, op.Quiet := by
  unfold block
  split <;> simp [object, Quiet]

end Operation

section

variable (env : Env)

theorem Draft.mem_settling {isLast : Bool} {base depth : Nat} {op : Operation}
    (h : op ∈ settling env isLast base depth) : op ∈ nilOperations env ∨ op = .discard := by
  unfold settling at h
  split_ifs at h
  · exact .inl h
  · cases h
  · exact .inr (List.eq_of_mem_replicate h)

namespace Sending

def call (s : Sending) : Instruction :=
  .invoke .invokevirtual ⟨env.library.object, if s.toSuper then "superPerform" else "perform",
    env.library.sendDescriptor s.message.arity⟩

def operations (s : Sending) : List Operation :=
  [.string s.message.selector, Operation.object env
    (if s.toSuper then "superPerform" else "perform")
    (env.library.sendDescriptor s.message.arity)]

theorem dispatch_eq (m : Message) (r : Receiver) :
    Operation.dispatch env m.selector m.arity r m.span =
      .line m.span.line :: operations env ⟨m, decide (r = .super)⟩ := by
  simp [operations, Operation.dispatch]

theorem isSend_call (s : Sending) : (s.call env).isSend = true := by
  cases h : s.toSuper <;> simp [call, Instruction.isSend, h]

/-- The message is sent at a place of the code: the selector is pushed right before, and the line
opened last is that of the message. -/
structure MadeAt (code : List Instruction) (place : Nat) (s : Sending) : Prop where
  call : code[place]? = some (s.call env)
  selector : (code.take place).getLast? = some (.constant (.string s.message.selector))
  line : lastLine (code.take place) = some s.message.span.line

variable {env}

theorem MadeAt.mono {code code' : List Instruction} {place : Nat} {s : Sending}
    (h : s.MadeAt env code place) (hmore : code <+: code') : s.MadeAt env code' place := by
  obtain ⟨more, rfl⟩ := hmore
  obtain ⟨hcall, hselector, hline⟩ := h
  have hlt := (List.getElem?_eq_some_iff.1 hcall).1
  have htake : (code ++ more).take place = code.take place :=
    List.take_append_of_le_length hlt.le
  rw [← htake] at hselector hline
  exact ⟨by rw [List.getElem?_append_left hlt, hcall], hselector, hline⟩

theorem madeAt_of_line {code : List Instruction} {s : Sending}
    (h : lastLine code = some s.message.span.line) :
    s.MadeAt env (code ++ [.constant (.string s.message.selector), s.call env])
      (code.length + 1) := by
  obtain ⟨front, hfront⟩ : ∃ x, x = code ++ [.constant (.string s.message.selector)] := ⟨_, rfl⟩
  have hlength : code.length + 1 = front.length := by simp [hfront]
  have hsplit : code ++ [.constant (.string s.message.selector), s.call env] =
      front ++ [s.call env] := by simp [hfront]
  rw [hlength, hsplit]
  refine ⟨List.getElem?_concat_length, ?_, ?_⟩
  · rw [List.take_left, hfront, List.getLast?_concat]
  · rw [List.take_left, hfront, lastLine_concat]
    exact h

end Sending

namespace Draft

/-- A draft goes on by code that sends some messages, in their order, and no others. -/
def Sends (d d' : Draft) (sent : List Sending) : Prop :=
  ∃ added, d'.code.toList = d.code.toList ++ added ∧
    List.Forall₂ (fun x s => s.MadeAt env d'.code.toList x.2)
      ((added.zipIdx d.code.size).filter fun x => x.1.isSend) sent

variable {env} {d d' : Draft}

theorem Sends.none {added : List Instruction} (h : ∀ i ∈ added, i.isSend = false)
    (hcode : d'.code.toList = d.code.toList ++ added) : d.Sends env d' [] := by
  refine ⟨added, hcode, ?_⟩
  rw [List.filter_eq_nil_iff.2 fun x hx => by simp [h _ (List.fst_mem_of_mem_zipIdx hx)]]
  exact .nil

theorem Sends.refl (d : Draft) : d.Sends env d [] :=
  .none (by simp) (List.append_nil _).symm

theorem Sends.trans {d₁ : Draft} {first second : List Sending} (h₁ : d.Sends env d₁ first)
    (h₂ : d₁.Sends env d' second) : d.Sends env d' (first ++ second) := by
  obtain ⟨added₁, hcode₁, hsent₁⟩ := h₁
  obtain ⟨added₂, hcode₂, hsent₂⟩ := h₂
  have hsize : d₁.code.size = d.code.size + added₁.length := by
    simpa using congrArg List.length hcode₁
  refine ⟨added₁ ++ added₂, by rw [hcode₂, hcode₁, List.append_assoc], ?_⟩
  rw [List.zipIdx_append, List.filter_append, ← hsize]
  exact List.rel_append (hsent₁.imp fun _ _ h => h.mono ⟨added₂, hcode₂.symm⟩) hsent₂

/-- Operations that send nothing, whether or not control comes to them. -/
theorem sends_runOperations {operations : List Operation}
    (hops : ∀ op ∈ operations, op.Quiet)
    (hf : (d.runOperations operations).fault = none) :
    d.Sends env (d.runOperations operations) [] := by
  refine runOperations_induction (R := fun d d' => d.Sends env d' []) (fun i => i.isSend = false)
    Sends.refl (fun h k => h.trans k) (fun _ h _ _ hi => ?_) rfl
    (fun op hop => (hops op hop).isSend) hf
  refine .none (List.forall_mem_singleton.2 hi) ?_
  rw [h.code, Array.toList_push]

theorem Lined.sends_call (h : d.Lined) {s : Sending}
    (hline : lastLine d.code.toList = some s.message.span.line)
    (hf : (d.runOperations (s.operations env)).fault = none) :
    d.Sends env (d.runOperations (s.operations env)) [s] := by
  have hcode := runOperations_isPlain
    (by simp [Sending.operations, Operation.isPlain, Operation.object]) h.reachable hf
  have hsends : (([.constant (.string s.message.selector), s.call env] : List Instruction).zipIdx
      d.code.toList.length).filter (fun x => x.1.isSend) =
        [(s.call env, d.code.toList.length + 1)] := by
    have hpush : (Instruction.constant (.string s.message.selector)).isSend = false := rfl
    simp [hpush, s.isSend_call env]
  refine ⟨[.constant (.string s.message.selector), s.call env], hcode, ?_⟩
  rw [hcode, ← Array.length_toList, hsends]
  exact .cons (Sending.madeAt_of_line hline) .nil

/-- A dispatch opens the line of its message before it sends the message. -/
theorem Lined.sends_dispatch (h : d.Lined) (m : Message) (r : Receiver)
    (hf : (d.runOperations (Operation.dispatch env m.selector m.arity r m.span)).fault = none) :
    d.Sends env (d.runOperations (Operation.dispatch env m.selector m.arity r m.span))
      [⟨m, decide (r = .super)⟩] := by
  obtain ⟨hlined, hline⟩ := h.openLine m.span.line
  rw [Sending.dispatch_eq] at hf ⊢
  have hquiet : ∀ op ∈ [Operation.line m.span.line], op.Quiet :=
    List.forall_mem_singleton.2 trivial
  have hopened : d.Sends env (d.step (Operation.line m.span.line).step) [] :=
    sends_runOperations hquiet (Draft.fault_run hf)
  exact hopened.trans (hlined.sends_call hline hf)

theorem sends_openRegion (d : Draft) : d.Sends env d.openRegion [] := by
  have hmark : (Instruction.mark d.nextLabel).isSend = false := rfl
  refine .none (List.forall_mem_singleton.2 hmark) ?_
  rw [openRegion_eq, Array.toList_push]

/-- The end of a region sends nothing. -/
theorem sends_closeRegion {start : Label} {span : Span} {markers : List String}
    (hf : (d.closeRegion env start span markers).fault = none) :
    d.Sends env (d.closeRegion env start span markers) [] := by
  by_cases hm : markers = []
  · simp only [Draft.closeRegion, hm, ↓reduceIte]
    exact .refl d
  · exact .none
      (forall_mem_closeCode (fun _ => rfl) (fun _ => rfl) (fun _ => rfl) (fun _ => rfl) rfl)
      (closeRegion_closes env start span hm hf).code

theorem sends_settle {isLast : Bool} {base : Nat} (hf : (d.settle env isLast base).fault = none) :
    d.Sends env (d.settle env isLast base) [] := by
  refine sends_runOperations (fun op hop => ?_) hf
  rcases mem_settling env hop with hop | rfl
  · exact Operation.quiet_nilOperations env op hop
  · trivial

end Draft

end

section

variable {env : Env}

/-- Where control runs through code, the line which is taken for open stays the one opened last. -/
theorem Draft.Lined.run {c : Code} {d : Draft} (h : d.Lined) (hc : c.Runs)
    (hf : (c.run env d).fault = none) : (c.run env d).Lined := by
  induction c generalizing d with
  | operations ops => exact h.runOperations hc hf
  | append first second ihFirst ihSecond =>
    exact ihSecond (ihFirst h hc.1 (Code.fault_run env hf)) hc.2 hf
  | marker name => exact h
  | region span body ih =>
    exact (ih h.openRegion hc (Draft.fault_closeRegion env hf)).closeRegion hf
  | statement isLast body ih =>
    refine (ih h hc (Draft.fault_run hf)).runOperations (fun op hop => ?_) hf
    rcases Draft.mem_settling env hop with hop | rfl
    · rintro rfl
      simp [Draft.nilOperations] at hop
    · simp

variable (env) in
/-- Code sends some messages, in their order, and no others, wherever control comes to it in a
method that records lines. -/
def Code.Sends (c : Code) (sent : List Sending) : Prop :=
  ∀ d : Draft, d.Lined → (c.run env d).fault = none → d.Sends env (c.run env d) sent

namespace Code.Sends

open Draft

variable {c first second : Code} {sent before after : List Sending}

theorem operations {operations : List Operation} (h : ∀ op ∈ operations, op.Quiet) :
    (Code.operations operations).Sends env [] :=
  fun _ _ hf => sends_runOperations h hf

theorem dispatch (m : Message) (r : Receiver) :
    (Code.operations (Operation.dispatch env m.selector m.arity r m.span)).Sends env
      [⟨m, decide (r = .super)⟩] :=
  fun _ hd hf => hd.sends_dispatch m r hf

theorem append (hfirst : first.Sends env before) (hruns : first.Runs)
    (hsecond : second.Sends env after) : (first.append second).Sends env (before ++ after) := by
  intro d hd hf
  have hf₁ : (first.run env d).fault = none := fault_run env hf
  exact (hfirst d hd hf₁).trans (hsecond _ (hd.run hruns hf₁) hf)

/-- Operations that send nothing may also come behind a return. -/
theorem andOperations (hfirst : first.Sends env sent) {operations : List Operation}
    (h : ∀ op ∈ operations, op.Quiet) :
    (first.append (.operations operations)).Sends env sent := by
  intro d hd hf
  have hboth := (hfirst d hd (fault_run env hf)).trans (sends_runOperations h hf)
  rwa [List.append_nil] at hboth

theorem region (h : c.Sends env sent) (span : Span) : (Code.region span c).Sends env sent := by
  intro d hd hf
  have hbody := (sends_openRegion d).trans
    (h _ hd.openRegion (Draft.fault_closeRegion env hf))
  have hall := hbody.trans (sends_closeRegion hf)
  rwa [List.nil_append, List.append_nil] at hall

theorem statement (h : c.Sends env sent) (isLast : Bool) :
    (Code.statement isLast c).Sends env sent := by
  intro d hd hf
  have hall := (h d hd (Draft.fault_run hf)).trans (sends_settle hf)
  rwa [List.append_nil] at hall

end Code.Sends

end

end SmalltalkJvm
