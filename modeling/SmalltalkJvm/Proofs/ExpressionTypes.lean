import SmalltalkJvm.Proofs.Checks
import SmalltalkJvm.Proofs.Preservation
import SmalltalkJvm.Proofs.Typing

/-! # Types of the code of a script

The code of an expression without escapes leaves one object of the support library on the stack,
whatever is there before, and its calls find values of the types they declare. The code of a
sequence returns such an object. Descriptors are supposed to be readable; whether they are depends
on the names of the library's classes only.
-/

namespace SmalltalkJvm

open Compile

variable (env : Env)

/-- A part of a script without free references to the escape identifier, given its references and
its blocks. -/
def Env.Free (resolve : String → Resolution) (names : List String)
    (literals : List BlockLiteral) : Prop :=
  env.EscapeFree resolve names ∧
    ∀ literal ∈ literals, literal.body.EscapeFree env literal.parameters

section

variable {env} {resolve : String → Resolution} {n₁ n₂ : List String} {l₁ l₂ : List BlockLiteral}

theorem Env.Free.left (h : env.Free resolve (n₁ ++ n₂) (l₁ ++ l₂)) : env.Free resolve n₁ l₁ :=
  ⟨h.1.left, (List.forall_mem_append.1 h.2).1⟩

theorem Env.Free.right (h : env.Free resolve (n₁ ++ n₂) (l₁ ++ l₂)) : env.Free resolve n₂ l₂ :=
  ⟨h.1.right, (List.forall_mem_append.1 h.2).2⟩

end

def Env.value : VerificationType := .object env.library.object

def Env.Types (result : Option FieldType) : Flow → Instruction → Prop :=
  fun f i => i.WellTyped env result f

abbrev Env.Typed : Flow → Instruction → Prop := env.Types (some (.reference env.library.object))

structure Env.Frame (locals : List VerificationType) : Prop where
  receiver : locals[1]? = some env.value
  context : locals[2]? = some (.object env.library.context)

theorem Env.frame_script : env.Frame env.scriptLocals := ⟨rfl, rfl⟩

theorem Env.frame_block : env.Frame env.blockLocals := ⟨rfl, rfl⟩

/-- No class that stands for a parameter has a name which ends early, and the answer of a marker can
be asked for. -/
structure Env.Speaks : Prop where
  plain : env.library.Plain
  answers : Legible s!"(){env.library.objectType}"

section

variable {env}

theorem assignable_object (name : String) :
    (VerificationType.object name).AssignableTo env (.reference name) := .inl rfl

theorem assignable_any (name : String) :
    (VerificationType.object name).AssignableTo env (.reference "java/lang/Object") :=
  .inr (.inl ⟨rfl, rfl⟩)

theorem assignable_int : VerificationType.int.AssignableTo env .int := .inl rfl

def Signature.leave (s : Signature) (stack : List VerificationType) : List VerificationType :=
  match s.result with
  | some name => .object name :: stack
  | none => stack

theorem Signature.pushResult_eq (s : Signature) (stack locals : List VerificationType) :
    (⟨stack, locals⟩ : Flow).pushResult s.descriptor.result = ⟨s.leave stack, locals⟩ := by
  cases hs : s.result with
  | none => simp [leave, Signature.descriptor, hs, Flow.pushResult]
  | some name =>
    simp only [leave, Signature.descriptor, hs, Option.map_some, Flow.pushResult]
    rfl

theorem drop?_arguments {arguments rest locals : List VerificationType} {n : Nat}
    (hn : n = arguments.length) :
    (⟨arguments.reverse ++ rest, locals⟩ : Flow).drop? n = some ⟨rest, locals⟩ := by
  subst hn
  rw [Flow.drop?, if_pos (by simp)]
  simp [List.drop_left' (List.length_reverse ..)]

end

namespace Operation

section

variable {env} {result : Option FieldType} {locals : List VerificationType}
  (stack : List VerificationType)

theorem turns_line (number : Nat) : (line number).Turns (env.Types result) locals stack stack :=
  ⟨rfl, by simp, by simp, trivial⟩

theorem turns_string (text : String) :
    (string text).Turns (env.Types result) locals stack (.object "java/lang/String" :: stack) :=
  ⟨rfl, by simp, by simp, trivial⟩

theorem turns_int (value : Int32) :
    (int value).Turns (env.Types result) locals stack (.int :: stack) := by
  refine ⟨Draft.effect?_intInstruction .., by simp, by simp, ?_⟩
  change (Draft.intInstruction value).WellTyped env result _
  unfold Draft.intInstruction Opcode.iconst?
  split
  · rename_i op h
    split_ifs at h <;> cases h <;> trivial
  · split_ifs <;> trivial

theorem turns_load {slot : UInt16} {t : VerificationType} (h : locals[slot.toNat]? = some t) :
    (load slot).Turns (env.Types result) locals stack (t :: stack) := by
  refine ⟨?_, by simp, by simp, trivial⟩
  simp only [instruction, Instruction.effect?, h, Option.map_some]
  rfl

theorem turns_dup (t : VerificationType) :
    dup.Turns (env.Types result) locals (t :: stack) (t :: t :: stack) :=
  ⟨rfl, by simp, by simp, trivial⟩

theorem turns_discard {t : VerificationType} (ht : t.isWide = false) :
    discard.Turns (env.Types result) locals (t :: stack) stack := by
  refine ⟨rfl, by simp, ?_, trivial⟩
  rintro - t' ⟨⟩
  exact ht

variable {s : Signature} {arguments : List VerificationType}
  (ha : List.Forall₂ (VerificationType.AssignableTo env) arguments s.descriptor.parameters)
include ha

theorem turns_invokeVirtual {method : MemberRef} (hw : s.Writes method.descriptor)
    (hl : Legible method.descriptor) {receiver : VerificationType}
    (hr : receiver.AssignableTo env (.reference method.owner)) :
    (invokeVirtual method).Turns (env.Types result) locals (arguments.reverse ++ receiver :: stack)
      (s.leave stack) := by
  have hparse := hw.parse hl
  refine ⟨?_, by simp, by simp, s.descriptor, arguments, [receiver], stack, hparse, rfl, ha, ?_⟩
  · simp only [instruction, Instruction.effect?, hparse, Except.toOption, Option.bind_some,
      drop?_arguments ha.length_eq.symm]
    rw [← Signature.pushResult_eq]
    rfl
  · rw [if_neg (by decide)]
    refine ⟨receiver, rfl, ?_⟩
    rw [VerificationType.Receives, if_neg (by simp)]
    exact hr

theorem turns_invokeStatic {method : MemberRef} (hw : s.Writes method.descriptor)
    (hl : Legible method.descriptor) :
    (invokeStatic method).Turns (env.Types result) locals (arguments.reverse ++ stack)
      (s.leave stack) := by
  have hparse := hw.parse hl
  refine ⟨?_, by simp, by simp, s.descriptor, arguments, [], stack, hparse, rfl, ha, rfl⟩
  simp only [instruction, Instruction.effect?, hparse, Except.toOption, Option.bind_some,
    drop?_arguments ha.length_eq.symm]
  rw [← Signature.pushResult_eq]
  rfl

theorem turns_invokeDynamic {site : CallSite} (hw : s.Writes site.descriptor)
    (hl : Legible site.descriptor) :
    (invokeDynamic site).Turns (env.Types result) locals (arguments.reverse ++ stack)
      (s.leave stack) := by
  have hparse := hw.parse hl
  refine ⟨?_, by simp, by simp, s.descriptor, arguments, stack, hparse, rfl, ha⟩
  simp only [instruction, Instruction.effect?, hparse, Except.toOption, Option.bind_some,
    drop?_arguments ha.length_eq.symm]
  rw [← Signature.pushResult_eq]
  rfl

end

section

variable {env} {locals : List VerificationType} (hframe : env.Frame locals)
  (stack : List VerificationType)

/-- A call to an object of the library which gives another one. -/
theorem turns_object (name : String) {ps : List Parameter} {descriptor : String}
    (hw : Signature.Writes ⟨ps, some env.library.object⟩ descriptor) (hl : Legible descriptor)
    {arguments : List VerificationType}
    (ha : List.Forall₂ (VerificationType.AssignableTo env) arguments (ps.map Parameter.type)) :
    (object env name descriptor).Turns env.Typed locals (arguments.reverse ++ env.value :: stack)
      (env.value :: stack) :=
  turns_invokeVirtual stack (s := ⟨ps, some env.library.object⟩) ha hw hl (assignable_object _)

include hframe

theorem turnAll_fixed {accessor : String} (h : ∀ op ∈ fixed env accessor, op.Readable) :
    TurnAll env.Typed locals (fixed env accessor) stack (env.value :: stack) :=
  ⟨_, turns_load stack hframe.receiver, _,
    turns_object stack accessor (writes_fixed env.library) (h _ (.tail _ (.head _))) .nil, rfl⟩

theorem turnAll_literal {kind : LiteralKind} {text : String}
    (h : ∀ op ∈ literal env kind text, op.Readable) :
    TurnAll env.Typed locals (literal env kind text) stack (env.value :: stack) :=
  ⟨_, turns_load stack hframe.receiver, _, turns_string _ text, _,
    turns_object stack _ (writes_ofObject env.library) (h _ (.tail _ (.tail _ (.head _))))
      (.cons (assignable_any _) .nil), rfl⟩

theorem turnAll_self : TurnAll env.Typed locals [load 1] stack (env.value :: stack) :=
  ⟨_, turns_load stack hframe.receiver, rfl⟩

theorem turnAll_pseudo {word : Pseudo} (h : ∀ op ∈ pseudo env word, op.Readable) :
    TurnAll env.Typed locals (pseudo env word) stack (env.value :: stack) := by
  cases word with
  | self | super => exact turnAll_self hframe stack
  | nil | true | false => exact turnAll_fixed hframe stack h

theorem turnAll_slot {accessor : String} {n : UInt16}
    (h : ∀ op ∈ slot env accessor n, op.Readable) :
    TurnAll env.Typed locals (slot env accessor n) stack (env.value :: stack) :=
  ⟨_, turns_load stack hframe.context, _, turns_int _ _, _,
    turns_invokeVirtual stack (s := ⟨[.int], some env.library.object⟩) (.cons assignable_int .nil)
      (writes_ofInt env.library) (h _ (.tail _ (.tail _ (.head _)))) (assignable_object _), rfl⟩

theorem turnAll_reference {name : String} {resolution : Resolution}
    (h : ∀ op ∈ reference env name resolution, op.Readable) :
    TurnAll env.Typed locals (reference env name resolution) stack (env.value :: stack) := by
  cases resolution with
  | temporary n | argument n => exact turnAll_slot hframe stack h
  | unresolved =>
    exact ⟨_, turns_load stack hframe.receiver, _, turns_string _ name, _,
      turns_object stack _ (writes_ofString env.library) (h _ (.tail _ (.tail _ (.head _))))
        (.cons (assignable_object _) .nil), rfl⟩

theorem turnAll_block {literal : BlockLiteral} {name : String}
    (h : ∀ op ∈ block env literal name, op.Readable) :
    TurnAll env.Typed locals (block env literal name) stack (env.value :: stack) := by
  rw [block, List.forall_mem_append] at h
  obtain ⟨hmake, hgive⟩ := h
  refine ⟨_, turns_line stack _, _, turns_load stack hframe.receiver,
    .object env.library.lambdaBlock :: env.value :: stack, turns_invokeDynamic _
      (s := ⟨[], some env.library.lambdaBlock⟩) .nil (writes_class env.library.lambdaBlock)
      (hmake _ (.tail _ (.tail _ (.head _)))), ?_⟩
  cases hrole : literal.role with
  | method =>
    simp only [hrole] at hgive
    exact ⟨_, turns_object stack _ (writes_ofObject env.library) (hgive _ (.head _))
      (.cons (assignable_any _) .nil), rfl⟩
  | value =>
    cases hanswers : literal.body.answers with
    | true =>
      simp only [hrole, hanswers] at hgive
      exact ⟨_, turns_string _ _, _, turns_object stack _ (writes_blockAnswer env.library)
        (hgive _ (.tail _ (.head _))) (.cons (assignable_any _) (.cons (assignable_object _) .nil)),
        rfl⟩
    | false =>
      simp only [hrole, hanswers] at hgive
      exact ⟨_, turns_object stack _ (writes_ofObject env.library) (hgive _ (.head _))
        (.cons (assignable_any _) .nil), rfl⟩

/-- Storing keeps the value on the stack. -/
theorem turnAll_assign (hl : env.library.Plain) {n : UInt16}
    (h : ∀ op ∈ assign env n, op.Readable) :
    TurnAll env.Typed locals (assign env n) (env.value :: stack) (env.value :: stack) :=
  ⟨_, turns_dup stack env.value, _, turns_int _ _, _, turns_load _ hframe.context, _,
    turns_invokeStatic _ (s := ⟨[.object env.library.object, .int, .object env.library.context],
        none⟩)
      (.cons (assignable_object _) (.cons assignable_int (.cons (assignable_object _) .nil)))
      (writes_store hl) (h _ (.tail _ (.tail _ (.tail _ (.head _))))), rfl⟩

theorem turnAll_declarations {temporaries : List Ident}
    (h : ∀ op ∈ declarations env temporaries, op.Readable) :
    TurnAll env.Typed locals (declarations env temporaries) stack stack := by
  cases temporaries with
  | nil => rfl
  | cons first rest =>
    exact ⟨_, turns_line stack _, _, turns_load stack hframe.context, _, turns_int _ _, _,
      turns_invokeVirtual stack (s := ⟨[.int], none⟩) (.cons assignable_int .nil) writes_count
        (h _ (.tail _ (.tail _ (.tail _ (.head _))))) (assignable_object _), rfl⟩

omit hframe in
theorem turnAll_dispatch (hl : env.library.Plain) {selector : String} (arity : Nat) {r : Receiver}
    {span : Span} (h : ∀ op ∈ dispatch env selector arity r span, op.Readable) :
    TurnAll env.Typed locals (dispatch env selector arity r span)
      (List.replicate arity env.value ++ env.value :: stack) (env.value :: stack) := by
  have harguments : List.Forall₂ (VerificationType.AssignableTo env)
      (List.replicate arity env.value ++ [.object "java/lang/String"])
      ((List.replicate arity (Parameter.object env.library.object) ++
        [Parameter.object "java/lang/String"]).map Parameter.type) := by
    rw [List.map_append, List.map_replicate]
    refine List.rel_append ?_ (.cons (assignable_object _) .nil)
    rw [List.forall₂_iff_get]
    simp [Env.value, Parameter.type, assignable_object]
  have hcall : Turns env.Typed locals _ _ _ := turns_object stack
    (if r = .super then "superPerform" else "perform") (writes_send hl arity)
    (h _ (.tail _ (.tail _ (.head _)))) harguments
  rw [List.reverse_append, List.reverse_replicate] at hcall
  exact ⟨_, turns_line _ _, _, turns_string _ selector, _, hcall, rfl⟩

end

end Operation

section

variable {env} {locals : List VerificationType} {names : Nat → String}

theorem handled_of_speaks (h : env.Speaks) (c : Code) : c.Handled env env.Typed locals := by
  have hparse := (writes_fixed env.library).parse h.answers
  refine fun marker _ => ⟨⟨.reference env.library.object, hparse⟩, fun _ => trivial, ?_, ?_⟩
  · refine ⟨_, [], [.object marker], [], hparse, rfl, .nil, ?_⟩
    rw [if_neg (by decide)]
    exact ⟨_, rfl, assignable_object marker⟩
  · intro type htype
    have hsame := hparse.symm.trans htype
    cases hsame
    exact ⟨_, [], _, rfl, rfl, assignable_object _⟩

theorem Code.Moves.line {operations : List Operation} {s s' : List VerificationType} (number : Nat)
    (h : Operation.TurnAll env.Typed locals operations s s') :
    (Code.operations (.line number :: operations)).Moves env env.Typed locals s s' :=
  .operations ⟨s, Operation.turns_line s number, h⟩

theorem Plan.region_moves (hs : env.Speaks) (wanted : Bool) (span : Span) {p : Plan} {k : Nat}
    {s s' : List VerificationType} (h : (p names k).Moves env env.Typed locals s s') :
    (Plan.region wanted span p names k).Moves env env.Typed locals s s' := by
  cases wanted with
  | false => exact h
  | true => exact h.region (handled_of_speaks hs _)

theorem BlockLiteral.plan_moves (hframe : env.Frame locals) (literal : BlockLiteral) (k : Nat)
    (hr : (literal.plan env names k).All Operation.Readable) (s : List VerificationType) :
    (literal.plan env names k).Moves env env.Typed locals s (env.value :: s) := by
  refine .append (.operations (Operation.turnAll_block hframe s hr.1)) ?_
  split_ifs
  · exact .marker
  · exact .nothing

mutual

theorem Expr.plan_moves (hframe : env.Frame locals) (hs : env.Speaks)
    {resolve : String → Resolution} (e : Expr)
    (h : env.EscapeFree resolve e.references) (k : Nat)
    (hr : (e.plan env resolve names k).All Operation.Readable) (s : List VerificationType) :
    (e.plan env resolve names k).Moves env env.Typed locals s (env.value :: s) := by
  cases e with
  | literal kind text span =>
    exact .line _ (Operation.turnAll_literal hframe s (List.forall_mem_cons.1 hr).2)
  | pseudo word span =>
    exact .line _ (Operation.turnAll_pseudo hframe s (List.forall_mem_cons.1 hr).2)
  | reference name span =>
    rw [Expr.plan, if_neg (h name (by simp [Expr.references]))] at hr ⊢
    exact .line _ (Operation.turnAll_reference hframe s (List.forall_mem_cons.1 hr).2)
  | block parameters body span => exact BlockLiteral.plan_moves hframe _ k hr s
  | send target m span =>
    obtain ⟨htarget, hmessage⟩ := Code.all_region names hr
    refine Plan.region_moves hs _ _ (.append (target.plan_moves hframe hs h.left k htarget s) ?_)
    exact m.plan_moves hframe hs (asReceiver_ne_escape h.left) h.right _ hmessage s
  | cascade target messages span =>
    exact .append (target.plan_moves hframe hs h.left k hr.1 s)
      (cascadePlan_moves hframe hs (asReceiver_ne_escape h.left) messages h.right _ hr.2 s)
  | assign target value span =>
    refine .append (value.plan_moves hframe hs h k hr.1 s) (.line _ ?_)
    have hrest := (List.forall_mem_cons.1 hr.2).2
    cases hresolve : resolve target.name with
    | temporary n =>
      rw [hresolve] at hrest
      exact Operation.turnAll_assign hframe s hs.plain hrest
    | argument n | unresolved => rfl
  | paren inner span => exact inner.plan_moves hframe hs h k hr s
  | primitive number span => exact .operations ⟨_, Operation.turns_load s hframe.receiver, rfl⟩

theorem Message.plan_moves (hframe : env.Frame locals) (hs : env.Speaks)
    {resolve : String → Resolution} {r : Receiver} (hr : r ≠ .escape) (m : Message)
    (h : env.EscapeFree resolve m.references) (k : Nat)
    (hread : (m.plan env resolve r names k).All Operation.Readable) (s : List VerificationType) :
    (m.plan env resolve r names k).Moves env env.Typed locals (env.value :: s)
      (env.value :: s) := by
  cases m with
  | unary selector => exact .operations (Operation.turnAll_dispatch s hs.plain 0 hread)
  | binary selector argument span =>
    exact .append (argument.plan_moves hframe hs h k hread.1 _)
      (.operations (Operation.turnAll_dispatch s hs.plain 1 hread.2))
  | keyword parts span =>
    rw [Message.plan, if_neg hr] at hread ⊢
    exact .append (argumentsPlan_moves hframe hs parts h k hread.1 _)
      (.operations (Operation.turnAll_dispatch s hs.plain _ hread.2))

theorem cascadePlan_moves (hframe : env.Frame locals) (hs : env.Speaks)
    {resolve : String → Resolution} {r : Receiver} (hr : r ≠ .escape) (messages : List Message)
    (h : env.EscapeFree resolve (messageReferences messages)) (k : Nat)
    (hread : (cascadePlan env resolve r messages names k).All Operation.Readable)
    (s : List VerificationType) :
    (cascadePlan env resolve r messages names k).Moves env env.Typed locals (env.value :: s)
      (env.value :: s) := by
  cases messages with
  | nil => exact .nothing
  | cons m rest =>
    rw [cascadePlan, if_neg hr] at hread ⊢
    obtain ⟨-, hm, -, hrest⟩ := hread
    have hmessage (s : List VerificationType) :=
      Plan.region_moves hs m.isKeyword m.span
        (m.plan_moves hframe hs hr h.left k (Code.all_region names hm) s)
    have hothers := cascadePlan_moves hframe hs hr rest h.right _ hrest s
    cases rest with
    | nil => exact .append .nothing (.append (hmessage s) (.append .nothing hothers))
    | cons next others =>
      exact .append (.operations ⟨_, Operation.turns_dup s env.value, rfl⟩)
        (.append (hmessage (env.value :: s))
          (.append (.operations ⟨_, Operation.turns_discard _ rfl, rfl⟩) hothers))

theorem argumentsPlan_moves (hframe : env.Frame locals) (hs : env.Speaks)
    {resolve : String → Resolution} (parts : List KeywordPart)
    (h : env.EscapeFree resolve (argumentReferences parts)) (k : Nat)
    (hr : (argumentsPlan env resolve parts names k).All Operation.Readable)
    (s : List VerificationType) :
    (argumentsPlan env resolve parts names k).Moves env env.Typed locals s
      (List.replicate parts.length env.value ++ s) := by
  cases parts with
  | nil => exact .nothing
  | cons part rest =>
    obtain ⟨keyword, argument⟩ := part
    have hstack : List.replicate (rest.length + 1) env.value ++ s =
        List.replicate rest.length env.value ++ env.value :: s := by
      rw [List.replicate_succ', List.append_assoc, List.singleton_append]
    rw [List.length_cons, hstack]
    cases argument with
    | block parameters body span =>
      exact .append (BlockLiteral.plan_moves hframe _ k hr.1 s)
        (argumentsPlan_moves hframe hs rest h.right _ hr.2 _)
    | _ =>
      exact .append (Expr.plan_moves hframe hs _ h.left k hr.1 s)
        (argumentsPlan_moves hframe hs rest h.right _ hr.2 _)

end

theorem Statement.plan_stops (hframe : env.Frame locals) (hs : env.Speaks)
    {resolve : String → Resolution} {value : Expr} {span : Span}
    (h : env.EscapeFree resolve value.references) (isLast : Bool) (k : Nat)
    (hr : ((Statement.answer value span).plan env resolve isLast names k).All Operation.Readable)
    (s : List VerificationType) :
    ((Statement.answer value span).plan env resolve isLast names k).Stops env env.Typed locals
      s := by
  obtain ⟨-, hvalue, -⟩ := hr
  have hreturn : (Code.operations [.areturn]).Stops env env.Typed locals (env.value :: s) :=
    .areturn ⟨_, _, _, rfl, rfl, assignable_object _⟩
  have hline : (Code.operations [.line span.line]).Moves env env.Typed locals s s :=
    .operations ⟨s, Operation.turns_line s span.line, rfl⟩
  have hbody := hline.andStops ((value.plan_moves hframe hs h _ hvalue s).andStops hreturn)
  exact .statement (.region hbody (handled_of_speaks hs _)) isLast

theorem Statement.plan_moves (hframe : env.Frame locals) (hs : env.Speaks)
    {resolve : String → Resolution} {value : Expr}
    (h : env.EscapeFree resolve value.references) (isLast : Bool) (k : Nat)
    (hr : ((Statement.expression value).plan env resolve isLast names k).All Operation.Readable)
    (s : List VerificationType) :
    ((Statement.expression value).plan env resolve isLast names k).Moves env env.Typed locals s
      (if isLast then env.value :: s else s) :=
  .statement rfl trivial
    ((value.plan_moves hframe hs h k hr s).region (handled_of_speaks hs _)) isLast

/-- Statements leave the value of the last one, unless it is an answer. -/
theorem statementsPlan_moves (hframe : env.Frame locals) (hs : env.Speaks)
    {resolve : String → Resolution} {ss : List Statement} (hss : ss ≠ [])
    (h : env.EscapeFree resolve (ss.flatMap Statement.references))
    (hchecked : statementsChecked env resolve ss) (k : Nat)
    (hr : (statementsPlan env resolve ss names k).All Operation.Readable)
    (s : List VerificationType) :
    (statementsPlan env resolve ss names k).Moves env env.Typed locals s (env.value :: s) ∨
      (statementsPlan env resolve ss names k).Stops env env.Typed locals s := by
  induction ss generalizing k with
  | nil => exact absurd rfl hss
  | cons statement rest ih =>
    obtain ⟨hlast, -, hrest⟩ := hchecked
    cases rest with
    | nil =>
      cases statement with
      | expression value =>
        exact .inl (.append (Statement.plan_moves hframe hs h.left true k hr.1 s) .nothing)
      | answer value span =>
        exact .inr (.andOperations (Statement.plan_stops hframe hs h.left true k hr.1 s) [])
    | cons next others =>
      cases statement with
      | answer value span => cases hlast rfl
      | expression value =>
        have hfirst := Statement.plan_moves hframe hs h.left false k hr.1 s
        exact (ih (by simp) h.right hrest _ hr.2).imp hfirst.append hfirst.andStops

/-- The code of a sequence returns a value. -/
theorem Sequence.plan_stops (hframe : env.Frame locals) (hs : env.Speaks)
    {parameters : List Ident} {operations : List Operation}
    (hempty : (∀ op ∈ operations, op.Readable) →
      Operation.TurnAll env.Typed locals operations [] [env.value])
    {body : Sequence} (h : body.EscapeFree env parameters)
    (hchecked : body.Checked env parameters) (k : Nat)
    (hr : (body.plan env parameters operations names k).All Operation.Readable) :
    (body.plan env parameters operations names k).Stops env env.Typed locals [] := by
  obtain ⟨temporaries, ss, span⟩ := body
  obtain ⟨hdeclarations, hbody, -⟩ := hr
  refine Code.Moves.andStops
    (.operations (Operation.turnAll_declarations hframe [] hdeclarations)) ?_
  have hreturn : (Code.operations [.areturn]).Stops env env.Typed locals [env.value] :=
    .areturn ⟨_, _, _, rfl, rfl, assignable_object _⟩
  cases ss with
  | nil =>
    exact (Code.Moves.line span.line (hempty (List.forall_mem_cons.1 hbody).2)).andStops hreturn
  | cons first rest =>
    rcases statementsPlan_moves hframe hs (by simp) h hchecked _ hbody [] with hm | he
    · exact hm.andStops hreturn
    · exact he.andOperations [.areturn]

end

end SmalltalkJvm
