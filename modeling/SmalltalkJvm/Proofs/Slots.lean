import SmalltalkJvm.Proofs.Acceptance
import SmalltalkJvm.Proofs.Constituents
import SmalltalkJvm.Proofs.Phrases

/-! # Slots of a context

A method keeps its temporaries and its arguments in numbered slots of a context. Its code makes the
slots for the temporaries once, before it does anything else with slots, and as many as there are
temporaries. The slot of a variable is its place among the temporaries of the sequence, or among the
parameters of the method, and of no other sequence; so it is always there. Directives can load an
argument, but they cannot call what works on slots: calls of theirs take no integers.
-/

namespace SmalltalkJvm

open Compile

def Instruction.constant? : Instruction → Option Int32
  | .plain op => op.constant?
  | .push _ n => some n.toInt32
  | .constant (.int n) => some n
  | _ => none

def Instruction.Pushes (i : Instruction) (n : Nat) : Prop :=
  ∃ value, i.constant? = some value ∧ value.toInt = n

theorem constant?_intInstruction (value : Int32) :
    (Draft.intInstruction value).constant? = some value := by
  unfold Draft.intInstruction
  split
  · rename_i op hop
    change op.constant? = some value
    unfold Opcode.iconst? at hop
    split_ifs at hop <;> cases hop <;> simp only [Opcode.constant?, Option.some.injEq] <;>
      apply Int32.toInt_inj.1 <;> simp [*]
  · split_ifs with hbyte hshort
    · have hsmall : value.toInt16.toInt32 = value := toInt32_toInt16 (by omega) (by omega)
      rw [Instruction.constant?, hsmall]
    · rw [Instruction.constant?, toInt32_toInt16 hshort.1 hshort.2]
    · rfl

theorem pushes_intInstruction {n : Nat} (h : n < 65536) :
    (Draft.intInstruction (Int32.ofNat n)).Pushes n := by
  have hsize : Int32.size = 4294967296 := rfl
  refine ⟨_, constant?_intInstruction _, ?_⟩
  rw [Int32.toInt_ofNat']
  apply Int.bmod_eq_of_le <;> omega

theorem pushes_ofNat {n : Nat} (h : n < 65536) :
    (Draft.intInstruction (Int32.ofNat (UInt16.ofNat n))).Pushes n := by
  rw [UInt16.toNat_ofNat_of_lt' h]
  exact pushes_intInstruction h

section

variable (env : Env)

def slotMethods : List String := ["initTemporaries", "temporaryAt", "temporaryPutAt", "argumentAt"]

/-- The instruction calls a method of the context with one of some names and gives it an index. -/
def Instruction.CallsSlots (names : List String) : Instruction → Prop
  | .invoke _ method => method.owner = env.library.context ∧ method.name ∈ names ∧
    ∃ d, MethodDescriptor.parse method.descriptor = .ok d ∧ .int ∈ d.parameters
  | _ => False

def Env.temporaryAt : Instruction :=
  .invoke .invokevirtual ⟨env.library.context, "temporaryAt", s!"(I){env.library.objectType}"⟩

def Env.argumentAt : Instruction :=
  .invoke .invokevirtual ⟨env.library.context, "argumentAt", s!"(I){env.library.objectType}"⟩

def Env.temporaryPutAt : Instruction :=
  .invoke .invokestatic ⟨env.library.context, "temporaryPutAt",
    s!"({env.library.objectType}I{env.library.contextType})V"⟩

def Env.initTemporaries : Instruction :=
  .invoke .invokevirtual ⟨env.library.context, "initTemporaries", "(I)V"⟩

example : Sample.env.temporaryPutAt.CallsSlots Sample.env slotMethods :=
  ⟨rfl, by decide,
    ⟨[.reference "st/core/PrimObject", .int, .reference "st/core/PrimContext"], none⟩,
    by decide +kernel, by decide⟩

def loadContext : Instruction := .slot .aload 2

namespace Operation

def Spares (op : Operation) : Prop := ¬op.instruction.CallsSlots env slotMethods

theorem spares_nilOperations : ∀ op ∈ Draft.nilOperations env, op.Spares env := by
  simp [Draft.nilOperations, Spares, instruction, Instruction.CallsSlots, slotMethods]

theorem spares_literal (kind : LiteralKind) (text : String) :
    ∀ op ∈ literal env kind text, op.Spares env := by
  cases kind <;> simp [literal, object, literalFactory, Spares, instruction,
    Instruction.CallsSlots, slotMethods]

theorem spares_pseudo (word : Pseudo) : ∀ op ∈ pseudo env word, op.Spares env := by
  cases word <;> simp [pseudo, fixed, object, Spares, instruction, Instruction.CallsSlots,
    slotMethods]

theorem spares_global (name : String) : ∀ op ∈ global env name, op.Spares env := by
  simp [global, object, Spares, instruction, Instruction.CallsSlots, slotMethods]

theorem spares_dispatch (selector : String) (arity : Nat) (r : Receiver) (span : Span) :
    ∀ op ∈ dispatch env selector arity r span, op.Spares env := by
  unfold dispatch
  split_ifs <;> simp [object, Spares, instruction, Instruction.CallsSlots, slotMethods]

theorem spares_block (literal : BlockLiteral) (name : String) :
    ∀ op ∈ block env literal name, op.Spares env := by
  unfold block
  split <;> simp [object, Spares, instruction, Instruction.CallsSlots, slotMethods]

end Operation

variable {env} in
theorem Instruction.IsFraming.spares {i : Instruction} (h : i.IsFraming) :
    ¬i.CallsSlots env slotMethods := by
  cases i with
  | invoke op method =>
    rintro ⟨-, hname, -⟩
    have hframing : method.name = "answer" ∨ method.name = "referenceNil" := by
      simpa [IsFraming, CallsOnly] using h
    rcases hframing with hframing | hframing <;> simp [hframing, slotMethods] at hname
  | _ => exact id

inductive SlotUse where
  | read (name : String)
  | write (name : String)
  /-- An argument that a directive loads. -/
  | load (index : Nat)

/-- A piece of code does what is said, in a method with the parameters and temporaries given. -/
def SlotUse.SpelledBy (parameters temporaries : List Ident) (use : SlotUse)
    (piece : List Instruction) : Prop :=
  match use with
  | read name => ∃ slot push, push.Pushes slot ∧
    (slot < temporaries.length ∧ temporaries.findIdx? (·.binds name) = some slot ∧
        piece = [loadContext, push, env.temporaryAt] ∨
      slot < parameters.length ∧ parameters.findIdx? (·.binds name) = some slot ∧
        piece = [loadContext, push, env.argumentAt])
  | write name => ∃ slot push, push.Pushes slot ∧
    slot < temporaries.length ∧ temporaries.findIdx? (·.binds name) = some slot ∧
      piece = [.plain .dup, push, loadContext, env.temporaryPutAt]
  | load index => ∃ push, push.Pushes index ∧ piece = [loadContext, push, env.argumentAt]

def Compile.Directive.slotUses : Directive → List String → List SlotUse
  | .argLoad, [text] => (index? text).elim [] fun n => [.load n.toNat]
  | _, _ => []

def escapeSlotUses (parts : List KeywordPart) : List SlotUse :=
  match Directive.ofSelector? (selectorOf parts),
    parts.mapM (directiveArgument (selectorOf parts)) with
  | some kind, .ok arguments => kind.slotUses arguments
  | _, _ => []

section

variable (resolve : String → Resolution)

mutual

def Expr.slotUses : Expr → List SlotUse
  | .literal .. | .pseudo .. | .block .. | .primitive .. => []
  | .reference name _ => if resolve name = .unresolved then [] else [.read name]
  | .send target m _ => target.slotUses ++ m.slotUses (target.asReceiver env resolve)
  | .cascade target messages _ =>
    target.slotUses ++ messageSlotUses (target.asReceiver env resolve) messages
  | .assign target value _ => value.slotUses ++ [.write target.name]
  | .paren inner _ => inner.slotUses

def Message.slotUses (r : Receiver) : Message → List SlotUse
  | .unary _ => []
  | .binary _ argument _ => argument.slotUses
  | .keyword parts _ => if r = .escape then escapeSlotUses parts else argumentSlotUses parts

def messageSlotUses (r : Receiver) : List Message → List SlotUse
  | [] => []
  | m :: rest => m.slotUses r ++ messageSlotUses r rest

def argumentSlotUses : List KeywordPart → List SlotUse
  | [] => []
  | ⟨_, argument⟩ :: rest => argument.slotUses ++ argumentSlotUses rest

end

end

def Sequence.slotUses (parameters : List Ident) (body : Sequence) : List SlotUse :=
  body.statements.flatMap fun statement =>
    statement.value.slotUses env (lookup parameters body.temporaries)

section

variable {env : Env} {parameters temporaries : List Ident}

variable (env parameters temporaries) in
/-- Code does what is said with the slots of its method and nothing else. -/
def Code.Works (c : Code) (uses : List SlotUse) : Prop :=
  c.Spells (fun i => ¬i.CallsSlots env slotMethods) (SlotUse.SpelledBy env parameters temporaries)
    env uses

namespace Code.Works

variable {c first second : Code} {uses before after : List SlotUse}

theorem none {operations : List Operation} (h : ∀ op ∈ operations, op.Spares env) :
    (Code.operations operations).Works env parameters temporaries [] :=
  Code.Spells.operations (fun _ hi => hi.spares) h

/-- Operations that are carried out one by one and do one thing with slots. -/
theorem one {operations : List Operation} {use : SlotUse}
    (hplain : ∀ op ∈ operations, op.isPlain = true)
    (h : use.SpelledBy env parameters temporaries (operations.map Operation.instruction)) :
    (Code.operations operations).Works env parameters temporaries [use] :=
  Code.Spells.plain hplain (.one h)

theorem line {operations : List Operation}
    (h : (Code.operations operations).Works env parameters temporaries uses) (number : Nat) :
    (Code.operations (.line number :: operations)).Works env parameters temporaries uses :=
  Code.Spells.line (fun _ hi => hi.spares) h number

theorem append (hfirst : first.Works env parameters temporaries before) (hruns : first.Runs)
    (hsecond : second.Works env parameters temporaries after) :
    (first.append second).Works env parameters temporaries (before ++ after) :=
  Code.Spells.append hfirst hruns hsecond

theorem andOperations (hfirst : first.Works env parameters temporaries uses)
    {operations : List Operation} (h : ∀ op ∈ operations, op.Spares env) :
    (first.append (.operations operations)).Works env parameters temporaries uses :=
  Code.Spells.andOperations (fun _ hi => hi.spares) hfirst h

theorem region {p : Plan} {names : Nat → String} {k : Nat}
    (h : (p names k).Works env parameters temporaries uses) (wanted : Bool) (span : Span) :
    (Plan.region wanted span p names k).Works env parameters temporaries uses := by
  cases wanted with
  | false => exact h
  | true => exact Code.Spells.region (fun _ hi => hi.spares) h span

theorem statement {p : Plan} {names : Nat → String} {k : Nat}
    (h : (p names k).Works env parameters temporaries uses) (isLast : Bool) (span : Span) :
    (Plan.statement isLast span p names k).Works env parameters temporaries uses :=
  Code.Spells.statement (fun _ hi => hi.spares)
    (Code.Spells.region (fun _ hi => hi.spares) h span) isLast

end Code.Works

variable (env) in
/-- A variable is read from its own slot. -/
theorem works_reference (hn : Addressable parameters temporaries) (name : String) :
    (Code.operations (Operation.reference env name (lookup parameters temporaries name))).Works env
      parameters temporaries
      (if lookup parameters temporaries name = .unresolved then [] else [.read name]) := by
  unfold lookup
  cases hname : variableOf parameters temporaries name with
  | temporary place =>
    obtain ⟨hfind, hlt⟩ := variableOf_temporary hname
    have hpushes := pushes_ofNat (hlt.trans hn.temporaries)
    exact .one (by simp [Operation.reference, Operation.slot, Operation.context,
      Operation.isPlain, Variable.resolution]) ⟨place, _, hpushes, .inl ⟨hlt, hfind, rfl⟩⟩
  | argument place =>
    obtain ⟨hfind, hlt⟩ := variableOf_argument hname
    have hpushes := pushes_ofNat (hlt.trans_le hn.parameters)
    exact .one (by simp [Operation.reference, Operation.slot, Operation.context,
      Operation.isPlain, Variable.resolution]) ⟨place, _, hpushes, .inr ⟨hlt, hfind, rfl⟩⟩
  | global => exact .none (Operation.spares_global env name)

variable (env) in
theorem works_assign (hn : Addressable parameters temporaries) {name : String} {slot : UInt16}
    (hname : lookup parameters temporaries name = .temporary slot) :
    (Code.operations (Operation.assign env slot)).Works env parameters temporaries
      [.write name] := by
  unfold lookup at hname
  cases hvariable : variableOf parameters temporaries name with
  | temporary place =>
    rw [hvariable] at hname
    cases hname
    obtain ⟨hfind, hlt⟩ := variableOf_temporary hvariable
    have hpushes := pushes_ofNat (hlt.trans hn.temporaries)
    exact .one (by simp [Operation.assign, Operation.isPlain]) ⟨place, _, hpushes, hlt, hfind, rfl⟩
  | argument place | global =>
    rw [hvariable] at hname
    cases hname

/-- A call that a directive may make takes no integers. -/
theorem ReferencesOnly.spares {op : Opcode} {method : MemberRef}
    (h : ReferencesOnly method.descriptor) :
    ¬(Instruction.invoke op method).CallsSlots env slotMethods := by
  rintro ⟨-, -, d, hd, hint⟩
  obtain ⟨d', hd', hall⟩ := h
  cases hd.symm.trans hd'
  cases hall .int (List.mem_append_left _ hint)

theorem primitive_not_mem_slotMethods (n : Nat) : s!"primitive{n}" ∉ slotMethods := by
  have hhead : (s!"primitive{n}").toList.head? = some 'p' := by simp
  have hothers : ∀ name ∈ slotMethods, name.toList.head? ≠ some 'p' := by decide
  intro h
  exact hothers _ h hhead

theorem works_directive {kind : Directive} {arguments : List String}
    (h : kind.Accepts arguments) :
    (Code.operations (Operation.directive env kind arguments)).Works env parameters temporaries
      (kind.slotUses arguments) := by
  cases h with
  | @argLoad text n hindex =>
    simp only [Operation.directive, Directive.slotUses, hindex, Option.elim_some]
    exact .one (by simp [Operation.slot, Operation.context, Operation.isPlain])
      ⟨_, pushes_intInstruction n.toNat_lt, rfl⟩
  | aload hindex =>
    simp only [Operation.directive, hindex, Option.elim_some]
    exact .none (List.forall_mem_singleton.2 id)
  | invokeVirtual hcall | invokeStatic hcall =>
    exact .none (List.forall_mem_singleton.2 hcall.spares)
  | getStatic => exact .none (List.forall_mem_singleton.2 id)
  | @primitive text n hindex =>
    simp only [Operation.directive, hindex, Option.elim_some]
    have hcall : (Operation.object env s!"primitive{n.toNat}"
        s!"({env.library.contextType}){env.library.objectType}").Spares env :=
      fun hcalls => primitive_not_mem_slotMethods n.toNat hcalls.2.1
    exact .none (List.forall_mem_cons.2
      ⟨id, List.forall_mem_cons.2 ⟨id, List.forall_mem_singleton.2 hcall⟩⟩)

variable (names : Nat → String)

theorem BlockLiteral.plan_works (literal : BlockLiteral) (k : Nat) :
    (literal.plan env names k).Works env parameters temporaries [] := by
  have hblock : (Code.operations (Operation.block env literal
      (names (k + (literal.body.blocks env).length)))).Works env parameters temporaries [] :=
    .none (Operation.spares_block env literal _)
  rw [BlockLiteral.plan]
  split_ifs
  · exact fun d hr hf => hblock d hr hf
  · exact hblock.andOperations (by simp)

mutual

theorem Expr.plan_works (hn : Addressable parameters temporaries) (e : Expr)
    (h : e.Compiles env (lookup parameters temporaries)) (k : Nat) :
    (e.plan env (lookup parameters temporaries) names k).Works env parameters temporaries
      (e.slotUses env (lookup parameters temporaries)) := by
  cases e with
  | literal kind text span => exact .line (.none (Operation.spares_literal env kind text)) span.line
  | pseudo word span => exact .line (.none (Operation.spares_pseudo env word)) span.line
  | reference name span =>
    have hread := works_reference env hn name
    rw [Expr.plan]
    split_ifs with hescape
    · rw [Expr.slotUses, if_pos hescape.1]
      exact .none (by simp)
    · exact hread.line span.line
  | block parameters body span => exact BlockLiteral.plan_works names _ k
  | send target m span =>
    obtain ⟨htarget, hm⟩ := h.send
    exact ((target.plan_works hn htarget k).append (target.plan_runs env _ names k)
      (m.plan_works hn hm _)).region m.isKeyword span
  | cascade target messages span =>
    obtain ⟨-, htarget, s, s', hs, hcascade⟩ := h.cascade
    exact (target.plan_works hn htarget k).append (target.plan_runs env _ names k)
      (cascadePlan_works hn messages (hs.cascade hcascade) _)
  | assign target value span =>
    obtain ⟨⟨slot, hslot⟩, hvalue⟩ := h.assign
    have hassign := (works_assign env hn hslot).line span.line
    have hall := (value.plan_works hn hvalue.compiles k).append (value.plan_runs env _ names k)
      hassign
    rw [Expr.plan]
    simp only [hslot]
    exact hall
  | paren inner span => exact inner.plan_works hn h.inner.compiles k
  | primitive number span => exact .none (List.forall_mem_singleton.2 id)

theorem Message.plan_works (hn : Addressable parameters temporaries) (m : Message) {r : Receiver}
    (h : m.Compiles env (lookup parameters temporaries) r) (k : Nat) :
    (m.plan env (lookup parameters temporaries) r names k).Works env parameters temporaries
      (m.slotUses env (lookup parameters temporaries) r) := by
  cases m with
  | unary selector => exact .none (Operation.spares_dispatch env _ _ _ _)
  | binary selector argument span =>
    exact (argument.plan_works hn h.binary.2.compiles k).andOperations
      (Operation.spares_dispatch env _ _ _ _)
  | keyword parts span =>
    rw [Message.plan, Message.slotUses]
    by_cases hr : r = .escape
    · subst hr
      obtain ⟨kind, arguments, hkind, harguments, hdirective⟩ := h.directive
      simp only [↓reduceIte, escapeSlotUses, Operation.escape, hkind, harguments]
      exact (works_directive hdirective).line span.line
    · rw [if_neg hr, if_neg hr]
      exact (argumentsPlan_works hn parts (h.arguments hr) k).andOperations
        (Operation.spares_dispatch env _ _ _ _)

theorem cascadePlan_works (hn : Addressable parameters temporaries) (messages : List Message)
    {r : Receiver} (h : ∀ m ∈ messages, m.Compiles env (lookup parameters temporaries) r)
    (k : Nat) :
    (cascadePlan env (lookup parameters temporaries) r messages names k).Works env parameters
      temporaries (messageSlotUses env (lookup parameters temporaries) r messages) := by
  cases messages with
  | nil => exact .none (by simp)
  | cons m rest =>
    obtain ⟨hm, hrest⟩ := List.forall_mem_cons.1 h
    have hmessage := m.plan_works hn hm k
    have hruns := m.plan_runs env (lookup parameters temporaries) names r k
    have hothers := cascadePlan_works hn rest hrest (k + (m.blocks env).length)
    rw [cascadePlan, messageSlotUses]
    by_cases hr : r = .escape
    · rw [if_pos hr]
      exact hmessage.append hruns hothers
    · -- The receiver is copied before every message but the last, and the value dropped after it.
      have haround (op : Operation) (hop : op.Spares env) (hne : op ≠ .areturn) :
          (Code.operations (if rest.isEmpty then [] else [op])).Works env parameters temporaries
            [] ∧ (Code.operations (if rest.isEmpty then [] else [op])).Runs := by
        cases rest.isEmpty with
        | false => exact ⟨.none (List.forall_mem_singleton.2 hop), List.forall_mem_singleton.2 hne⟩
        | true => exact ⟨.none (by simp), by simp [Code.Runs, Code.All]⟩
      have hdup := haround .dup id (by simp)
      have hdiscard := haround .discard id (by simp)
      rw [if_neg hr]
      exact hdup.1.append hdup.2 ((hmessage.region m.isKeyword m.span).append
        (Plan.region_runs names hruns) (hdiscard.1.append hdiscard.2 hothers))

theorem argumentsPlan_works (hn : Addressable parameters temporaries) (parts : List KeywordPart)
    (h : ∀ part ∈ parts, part.argument.IsArgument env (lookup parameters temporaries)) (k : Nat) :
    (argumentsPlan env (lookup parameters temporaries) parts names k).Works env parameters
      temporaries (argumentSlotUses env (lookup parameters temporaries) parts) := by
  cases parts with
  | nil => exact .none (by simp)
  | cons part rest =>
    obtain ⟨hpart, hrest⟩ := List.forall_mem_cons.1 h
    have hothers := argumentsPlan_works hn rest hrest
    obtain ⟨keyword, argument⟩ := part
    cases argument with
    | block parameters body span =>
      exact (BlockLiteral.plan_works names _ k).append (BlockLiteral.plan_runs env names _ k)
        (hothers _)
    | _ =>
      exact (Expr.plan_works hn _ hpart.compiles k).append (Expr.plan_runs env _ names _ k)
        (hothers _)

end

theorem Statement.plan_works (hn : Addressable parameters temporaries) (statement : Statement)
    (h : statement.value.IsValue env (lookup parameters temporaries)) (isLast : Bool) (k : Nat) :
    (statement.plan env (lookup parameters temporaries) isLast names k).Works env parameters
      temporaries (statement.value.slotUses env (lookup parameters temporaries)) := by
  have hvalue := statement.value.plan_works names hn h.compiles k
  cases statement with
  | expression value => exact hvalue.statement isLast value.span
  | answer value span =>
    have hline : (Code.operations [.line span.line]).Works env parameters temporaries [] :=
      .none (List.forall_mem_singleton.2 id)
    have hreturn : ∀ op ∈ [Operation.areturn], op.Spares env := List.forall_mem_singleton.2 id
    have hall := hline.append (by simp [Code.Runs, Code.All]) (hvalue.andOperations hreturn)
    exact Code.Works.statement hall isLast span

/-- An answer is the last statement, so control comes to all statements. -/
theorem statementsPlan_works (hn : Addressable parameters temporaries) {ss : List Statement}
    (h : ∀ statement ∈ ss, statement.value.IsValue env (lookup parameters temporaries))
    (hchecked : statementsChecked env (lookup parameters temporaries) ss) (k : Nat) :
    (statementsPlan env (lookup parameters temporaries) ss names k).Works env parameters
      temporaries (ss.flatMap fun statement =>
        statement.value.slotUses env (lookup parameters temporaries)) := by
  induction ss generalizing k with
  | nil => exact .none (by simp)
  | cons statement rest ih =>
    obtain ⟨hvalue, hrest⟩ := List.forall_mem_cons.1 h
    have hfirst := statement.plan_works names hn hvalue rest.isEmpty k
    have hothers := ih hrest hchecked.2.2
    rw [List.flatMap_cons]
    cases statement with
    | expression value => exact hfirst.append (value.plan_runs env _ names k) (hothers _)
    | answer value span =>
      obtain rfl := hchecked.1 rfl
      rw [List.flatMap_nil, List.append_nil]
      exact hfirst.andOperations (by simp)

/-- The code of a sequence behind the declaration of its temporaries. -/
theorem Sequence.body_works {body : Sequence} (hn : Addressable parameters body.temporaries)
    (h : body.Compiles env parameters) (hchecked : body.Checked env parameters)
    {whenEmpty : List Operation} (hempty : ∀ op ∈ whenEmpty, op.Spares env) (k : Nat) :
    (Plan.append (body.blocks env).length
      (if body.statements.isEmpty then .operations (.line body.span.line :: whenEmpty)
        else statementsPlan env (lookup parameters body.temporaries) body.statements)
      (.operations [.areturn]) names k).Works env parameters body.temporaries
        (body.slotUses env parameters) := by
  have hreturn : ∀ op ∈ [Operation.areturn], op.Spares env := List.forall_mem_singleton.2 id
  refine Code.Works.andOperations ?_ hreturn
  obtain ⟨temporaries, ss, span⟩ := body
  cases ss with
  | nil => exact .line (.none hempty) span.line
  | cons statement rest => exact statementsPlan_works names hn h.statements hchecked k

end

section

variable {env : Env} {parameters temporaries : List Ident}

theorem Instruction.Pushes.spares {i : Instruction} {n : Nat} (h : i.Pushes n)
    (names : List String) : ¬i.CallsSlots env names := by
  obtain ⟨value, hvalue, -⟩ := h
  cases i with
  | invoke op method => cases hvalue
  | _ => exact id

theorem Instruction.CallsSlots.mono {i : Instruction} {few many : List String}
    (h : i.CallsSlots env few) (hsub : few ⊆ many) : i.CallsSlots env many := by
  cases i with
  | invoke op method => exact ⟨h.1, hsub h.2.1, h.2.2⟩
  | _ => exact h

namespace SlotUse.SpelledBy

variable {use : SlotUse} {piece : List Instruction}

/-- A piece calls one method, and one of the temporaries only where there are some. -/
theorem spares (h : use.SpelledBy env parameters temporaries piece) {names : List String}
    (hargument : "argumentAt" ∉ names)
    (htemporary : temporaries ≠ [] → "temporaryAt" ∉ names ∧ "temporaryPutAt" ∉ names) :
    ∀ i ∈ piece, ¬i.CallsSlots env names := by
  have hnames {slot : Nat} (hlt : slot < temporaries.length) :=
    htemporary (List.ne_nil_of_length_pos (Nat.zero_lt_of_lt hlt))
  cases use with
  | read name =>
    obtain ⟨slot, push, hpush, ⟨hlt, -, rfl⟩ | ⟨-, -, rfl⟩⟩ := h
    · simpa using ⟨id, hpush.spares names, fun hcalls => (hnames hlt).1 hcalls.2.1⟩
    · simpa using ⟨id, hpush.spares names, fun hcalls => hargument hcalls.2.1⟩
  | write name =>
    obtain ⟨slot, push, hpush, hlt, -, rfl⟩ := h
    simpa using ⟨id, hpush.spares names, id, fun hcalls => (hnames hlt).2 hcalls.2.1⟩
  | load index =>
    obtain ⟨push, hpush, rfl⟩ := h
    simpa using ⟨id, hpush.spares names, fun hcalls => hargument hcalls.2.1⟩

end SlotUse.SpelledBy

variable (env parameters temporaries) in
def UsesSlots (code : List Instruction) (uses : List SlotUse) : Prop :=
  Spells (fun i => ¬i.CallsSlots env slotMethods) (SlotUse.SpelledBy env parameters temporaries)
    code uses

variable (env parameters) in
/-- A method works on the slots of its context as the sequence that it has the code of does. -/
structure MethodBody.KeepsSlots (b : MethodBody) (body : Sequence) : Prop where
  /-- Without temporaries there are no slots of temporaries to work on. -/
  undeclared : body.temporaries = [] →
    (∀ i ∈ b.instructions,
      ¬i.CallsSlots env ["initTemporaries", "temporaryAt", "temporaryPutAt"]) ∧
    UsesSlots env parameters body.temporaries b.instructions (body.slotUses env parameters)
  /-- The slots of the temporaries are made once, before anything else is done with slots. -/
  declared : body.temporaries ≠ [] → ∃ before push after,
    b.instructions = before ++ loadContext :: push :: env.initTemporaries :: after ∧
    push.Pushes body.temporaries.length ∧
    (∀ i ∈ before, ¬i.CallsSlots env slotMethods) ∧
    (∀ i ∈ after, ¬i.CallsSlots env ["initTemporaries"]) ∧
    UsesSlots env parameters body.temporaries after (body.slotUses env parameters)

variable (env) in
def MakesSlots (temporaries : List Ident) (_ : Unit) (piece : List Instruction) : Prop :=
  ∃ push, push.Pushes temporaries.length ∧ piece = [loadContext, push, env.initTemporaries]

theorem spells_declarations (hn : temporaries.length < 65536) (hsome : temporaries ≠ []) :
    (Code.operations (Operation.declarations env temporaries)).Spells
      (fun i => ¬i.CallsSlots env slotMethods) (MakesSlots env temporaries) env [()] := by
  cases temporaries with
  | nil => exact absurd rfl hsome
  | cons first rest =>
    refine Code.Spells.line (fun _ hi => hi.spares) (.plain ?_ (.one ?_)) first.span.line
    · simp [Operation.initTemporaries, Operation.context, Operation.isPlain]
    · exact ⟨_, pushes_ofNat hn, rfl⟩

/-- A method first makes its slots and then works on them. -/
theorem MethodBody.Realizes.exists_works {b : MethodBody} {body : Sequence}
    (h : b.Realizes env parameters body) (hn : Addressable parameters body.temporaries)
    (hcompiles : body.Compiles env parameters) (hchecked : body.Checked env parameters) :
    ∃ making working, b.instructions = making ++ working ∧
      (body.temporaries = [] → making = []) ∧
      (body.temporaries ≠ [] → Spells (fun i => ¬i.CallsSlots env slotMethods)
        (MakesSlots env body.temporaries) making [()]) ∧
      UsesSlots env parameters body.temporaries working (body.slotUses env parameters) := by
  obtain ⟨whenEmpty, names, k, locals, hempty, hfinish⟩ := h
  have hspares : ∀ op ∈ whenEmpty, op.Spares env := by
    rcases hempty with rfl | rfl
    · exact List.forall_mem_singleton.2 id
    · exact Operation.spares_nilOperations env
  have hfinishes := Draft.finishes_of_finish hfinish
  obtain ⟨start, hstart⟩ : ∃ start, start =
    (env.method locals).runOperations (Operation.declarations env body.temporaries) := ⟨_, rfl⟩
  have hf : start.fault = none := by
    rw [hstart]
    exact Code.fault_run env hfinishes.fault
  have hr : start.reachable = true := by
    rw [hstart] at hf ⊢
    exact (readable_of_runOperations (fun op hop =>
      (Operation.standard_declarations env body.temporaries op hop).ne_areturn) rfl hf).2
  obtain ⟨working, hworking, hspells⟩ :=
    body.body_works names hn hcompiles hchecked hspares k start hr (hstart ▸ hfinishes.fault)
  refine ⟨start.code.toList, working, ?_, fun hnone => ?_, fun hsome => ?_, hspells⟩
  · rw [hfinishes.instructions, ← hworking, hstart]
    rfl
  · rw [hstart, hnone]
    rfl
  · subst hstart
    obtain ⟨making, hmaking, hmakes⟩ := spells_declarations hn.temporaries hsome _ rfl hf
    have hcode : (Code.run env (.operations (Operation.declarations env body.temporaries))
        (env.method locals)).code.toList = making := hmaking
    rw [← hcode] at hmakes
    exact hmakes

theorem MethodBody.Realizes.keepsSlots {b : MethodBody} {body : Sequence}
    (h : b.Realizes env parameters body) (hn : Addressable parameters body.temporaries)
    (hcompiles : body.Compiles env parameters) (hchecked : body.Checked env parameters) :
    b.KeepsSlots env parameters body := by
  obtain ⟨making, working, hcode, hnone, hsome, hspells⟩ := h.exists_works hn hcompiles hchecked
  constructor
  · intro hempty
    rw [hnone hempty, List.nil_append] at hcode
    rw [hcode]
    refine ⟨hspells.forall_mem (fun i hi hcalls => hi (hcalls.mono ?_))
      (fun use _ piece hpiece => hpiece.spares (by simp) (absurd hempty)), hspells⟩
    simp [slotMethods]
  · intro hdeclared
    obtain ⟨before, piece, rest, rfl, hbefore, ⟨push, hpush, rfl⟩, hrest⟩ :=
      (hsome hdeclared).exists_first
    have hskipped : ∀ i ∈ rest, ¬i.CallsSlots env slotMethods :=
      hrest.forall_mem (fun _ hi => hi) (by simp)
    have hafter := (Spells.none hskipped).append hspells
    refine ⟨before, push, rest ++ working, ?_, hpush, hbefore, ?_, hafter⟩
    · simp [hcode]
    · refine hafter.forall_mem (fun i hi hcalls => hi (hcalls.mono ?_))
        (fun use _ piece hpiece => hpiece.spares (by simp) (by simp))
      simp [slotMethods]

theorem markerClass_spares {name : String} {span : Span} {file : ClassFile}
    (h : markerClass env name span = .ok file) {m : Method} (hm : m ∈ file.methods) :
    ∀ i ∈ m.body.instructions, ¬i.CallsSlots env slotMethods := by
  unfold markerClass at h
  split at h
  · cases h
  · rename_i b hfinish
    cases h
    rw [List.mem_singleton.1 hm]
    have hcode := (markerConstructor_verified hfinish).2
    simp [hcode, Instruction.CallsSlots, slotMethods]

/-- In a script that compiles, whatever directives it has, every method works on slots as the
sequence does that it has the code of: it makes slots for the temporaries of that sequence and
finds each variable in the slot of its own name. The methods of marker classes do nothing with
slots. -/
theorem generate_keeps_slots {script : Script} {g : Generated}
    (h : generate env script = .ok g) :
    List.Forall₂ (fun m body => Addressable body.1 body.2.temporaries →
        m.body.KeepsSlots env body.1 body.2)
      (g.sendMessages :: g.blocks) (script.bodies env) ∧
    ∀ file ∈ g.markers, ∀ m ∈ file.methods, ∀ i ∈ m.body.instructions,
      ¬i.CallsSlots env slotMethods := by
  constructor
  · refine (generate_realizes h).imp fun m body hbody hn => ?_
    exact hbody.2.keepsSlots hn (generate_compiles h body hbody.1) (generate_checks h body hbody.1)
  · intro file hfile m hm
    obtain ⟨name, span, hmarker⟩ := (generate_outlined env h).blocks.exists_of_mem_files hfile
    exact markerClass_spares hmarker hm

end

end

namespace Sample

/-- Keeps a block that gives its argument back in the second of two temporaries. -/
def keepsBlock : Script :=
  let same : Sequence := ⟨[], [.expression (.reference "x" span)], span⟩
  let assign : Expr := .assign ⟨"b", span⟩ (.block [⟨":x", span⟩] same span) span
  let ss : List Statement := [.expression assign, .expression (.reference "b" span)]
  ⟨⟨[⟨"a", span⟩, ⟨"b", span⟩], ss, span⟩, span⟩

theorem escapeFree_keepsBlock : keepsBlock.EscapeFree env := by decide

end Sample

theorem keeps_slots_of_sample :
    ∃ g block, generate Sample.env Sample.keepsBlock = .ok g ∧ g.blocks = [block] ∧
      (∃ before push after, g.sendMessages.body.instructions =
          before ++ loadContext :: push :: Sample.env.initTemporaries :: after ∧ push.Pushes 2 ∧
        ∃ slot, slot.Pushes 1 ∧
          [.plain .dup, slot, loadContext, Sample.env.temporaryPutAt] <:+: after) ∧
      ∃ slot, slot.Pushes 0 ∧
        [loadContext, slot, Sample.env.argumentAt] <:+: block.body.instructions := by
  obtain ⟨g, hg⟩ := Script.generates _ Sample.legal Sample.escapeFree_keepsBlock (by decide)
  obtain ⟨hall, -⟩ := generate_keeps_slots hg
  have hbodies : Sample.keepsBlock.bodies Sample.env = [([], Sample.keepsBlock.body),
    ([⟨":x", Sample.span⟩], ⟨[], [.expression (.reference "x" Sample.span)], Sample.span⟩)] := rfl
  rw [hbodies] at hall
  obtain ⟨hscript, hblocks⟩ := List.forall₂_cons.1 hall
  obtain ⟨block, rest, hblock, hrest, hcons⟩ := List.forall₂_cons_right_iff.1 hblocks
  rw [List.forall₂_nil_right_iff.1 hrest] at hcons
  refine ⟨g, block, hg, hcons, ?_, ?_⟩
  · obtain ⟨before, push, after, hcode, hpush, -, -, hspells⟩ :=
      (hscript ⟨by decide, by decide⟩).declared (by simp [Sample.keepsBlock])
    have hwrite : SlotUse.write "b" ∈ Sample.keepsBlock.body.slotUses Sample.env [] :=
      List.mem_cons_self
    obtain ⟨piece, ⟨slot, push', hpush', -, hfind, rfl⟩, hinfix⟩ := hspells.exists_infix hwrite
    obtain rfl : slot = 1 := by
      have hb : Sample.keepsBlock.body.temporaries.findIdx? (·.binds "b") = some 1 := by decide
      exact Option.some.inj (hfind.symm.trans hb)
    exact ⟨before, push, after, hcode, hpush, push', hpush', hinfix⟩
  · obtain ⟨-, hspells⟩ := (hblock ⟨by decide, by decide⟩).undeclared rfl
    obtain ⟨piece, ⟨slot, push, hpush, ⟨hlt, -⟩ | ⟨hlt, -, rfl⟩⟩, hinfix⟩ :=
      hspells.exists_infix (x := .read "x") List.mem_cons_self
    · cases hlt
    · obtain rfl : slot = 0 := Nat.lt_one_iff.1 hlt
      exact ⟨push, hpush, hinfix⟩

end SmalltalkJvm
