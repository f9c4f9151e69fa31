import SmalltalkJvm.Proofs.Protection
import SmalltalkJvm.Proofs.Signature

/-! # Calls on values

What the calls into the support library do to a stack of values. Their descriptors are known up to
the names of the library's classes. In a method that was finished they can be read, and then each
call takes the operands that were pushed for it.
-/

namespace SmalltalkJvm

open Compile Draft

/-- No class that stands for a parameter has a name which ends early. -/
def SupportLibrary.Plain (l : SupportLibrary) : Prop :=
  ';' ∉ l.object.toList ∧ ';' ∉ l.context.toList

/-- The name of a class that can be read wherever it stands in a descriptor. -/
def LegalName (name : String) : Prop := name ≠ "" ∧ ';' ∉ name.toList ∧ ')' ∉ name.toList

instance (name : String) : Decidable (LegalName name) := inferInstanceAs (Decidable (_ ∧ _))

structure SupportLibrary.Legal (l : SupportLibrary) : Prop where
  object : LegalName l.object
  context : LegalName l.context
  blockAnswer : LegalName l.blockAnswer
  lambdaBlock : LegalName l.lambdaBlock
  classLoader : LegalName l.classLoader

theorem SupportLibrary.Legal.plain {l : SupportLibrary} (h : l.Legal) : l.Plain :=
  ⟨h.object.2.1, h.context.2.1⟩

def Signature.Writes (s : Signature) (descriptor : String) : Prop :=
  s.Plain ∧ descriptor.toList = s.text

def Legible (descriptor : String) : Prop := ∃ d, MethodDescriptor.parse descriptor = .ok d

theorem Signature.Writes.parse {s : Signature} {descriptor : String} (h : s.Writes descriptor)
    (hl : Legible descriptor) : MethodDescriptor.parse descriptor = .ok s.descriptor := by
  obtain ⟨d, hd⟩ := hl
  obtain ⟨-, rfl⟩ := (Signature.parse_iff h.1 h.2).1 hd
  exact hd

theorem Signature.Writes.legible {s : Signature} {descriptor : String} (h : s.Writes descriptor)
    (hs : s.Legal) : Legible descriptor :=
  ⟨_, (Signature.parse_iff h.1 h.2).2 ⟨hs, rfl⟩⟩

section

variable {l : SupportLibrary}

@[simp] theorem toString_eq (text : String) : toString text = text := rfl

theorem toList_objectType (l : SupportLibrary) :
    l.objectType.toList = Parameter.text (.object l.object) := by
  simp [SupportLibrary.objectType, Parameter.text]

theorem toList_contextType (l : SupportLibrary) :
    l.contextType.toList = Parameter.text (.object l.context) := by
  simp [SupportLibrary.contextType, Parameter.text]

/-- A method that takes fixed types and returns an object. -/
theorem writes_object (l : SupportLibrary) {ps : List Parameter} (hp : ∀ p ∈ ps, p.Plain)
    {start : String} (hs : start.toList = '(' :: (ps.flatMap Parameter.text ++ [')'])) :
    Signature.Writes ⟨ps, some l.object⟩ (start ++ l.objectType) := by
  refine ⟨hp, ?_⟩
  simp [hs, toList_objectType, Signature.text, Signature.resultText, Parameter.text]

theorem writes_fixed (l : SupportLibrary) :
    Signature.Writes ⟨[], some l.object⟩ s!"(){l.objectType}" :=
  writes_object l (by simp) (by simp)

theorem writes_ofObject (l : SupportLibrary) :
    Signature.Writes ⟨[.object "java/lang/Object"], some l.object⟩
      s!"(Ljava/lang/Object;){l.objectType}" :=
  writes_object l (by simp [Parameter.Plain]) (by simp [Parameter.text])

theorem writes_ofString (l : SupportLibrary) :
    Signature.Writes ⟨[.object "java/lang/String"], some l.object⟩
      s!"(Ljava/lang/String;){l.objectType}" :=
  writes_object l (by simp [Parameter.Plain]) (by simp [Parameter.text])

theorem writes_ofInt (l : SupportLibrary) :
    Signature.Writes ⟨[.int], some l.object⟩ s!"(I){l.objectType}" :=
  writes_object l (by simp [Parameter.Plain]) (by simp [Parameter.text])

theorem writes_blockAnswer (l : SupportLibrary) :
    Signature.Writes ⟨[.object "java/lang/Object", .object "java/lang/String"], some l.object⟩
      s!"(Ljava/lang/Object;Ljava/lang/String;){l.objectType}" :=
  writes_object l (by simp [Parameter.Plain]) (by simp [Parameter.text])

theorem writes_count : Signature.Writes ⟨[.int], none⟩ "(I)V" :=
  ⟨by simp [Signature.Plain, Parameter.Plain],
    by simp [Signature.text, Parameter.text, Signature.resultText]⟩

theorem writes_nothing : Signature.Writes ⟨[], none⟩ "()V" :=
  ⟨by simp [Signature.Plain], by simp [Signature.text, Signature.resultText]⟩

theorem writes_text : Signature.Writes ⟨[], some "java/lang/String"⟩ "()Ljava/lang/String;" :=
  ⟨by simp [Signature.Plain], by simp [Signature.text, Signature.resultText]⟩

theorem writes_import :
    Signature.Writes ⟨[.object "java/lang/String"], none⟩ "(Ljava/lang/String;)V" :=
  ⟨by simp [Signature.Plain, Parameter.Plain],
    by simp [Signature.text, Signature.resultText, Parameter.text]⟩

/-- A method that takes nothing and returns an object of a class. -/
theorem writes_class (name : String) : Signature.Writes ⟨[], some name⟩ s!"()L{name};" :=
  ⟨by simp [Signature.Plain], by simp [Signature.text, Signature.resultText]⟩

theorem writes_send (hl : l.Plain) (arity : Nat) :
    Signature.Writes ⟨List.replicate arity (.object l.object) ++ [.object "java/lang/String"],
      some l.object⟩ (l.sendDescriptor arity) := by
  refine ⟨?_, ?_⟩
  · intro p hp
    rcases List.mem_append.1 hp with hp | hp
    · rw [List.eq_of_mem_replicate hp]
      exact hl.1
    · rw [List.mem_singleton.1 hp]
      simp [Parameter.Plain]
  · simp [SupportLibrary.sendDescriptor, toList_objectType, Signature.text,
      Signature.resultText, Parameter.text, List.flatMap_def]

theorem writes_takeObject (hl : l.Plain) :
    Signature.Writes ⟨[.object l.object], none⟩ s!"({l.objectType})V" := by
  refine ⟨List.forall_mem_singleton.2 hl.1, ?_⟩
  simp [toList_objectType, Signature.text, Signature.resultText, Parameter.text]

theorem writes_script (hl : l.Plain) :
    Signature.Writes ⟨[.object l.object, .object l.context], some l.object⟩ l.scriptDescriptor := by
  refine ⟨List.forall_mem_cons.2 ⟨hl.1, List.forall_mem_singleton.2 hl.2⟩, ?_⟩
  simp [SupportLibrary.scriptDescriptor, toList_objectType, toList_contextType, Signature.text,
    Signature.resultText, Parameter.text]

theorem writes_store (hl : l.Plain) :
    Signature.Writes ⟨[.object l.object, .int, .object l.context], none⟩
      s!"({l.objectType}I{l.contextType})V" := by
  refine ⟨?_, ?_⟩
  · simpa [Signature.Plain, Parameter.Plain, SupportLibrary.Plain] using hl
  · simp [toList_objectType, toList_contextType, Signature.text, Signature.resultText,
      Parameter.text]

end

namespace Operation

def Readable : Operation → Prop
  | invokeVirtual method | invokeStatic method => Legible method.descriptor
  | invokeDynamic site => Legible site.descriptor
  | _ => True

/-- A descriptor of the support library: it can be read if all classes have legal names. -/
def Supports (l : SupportLibrary) (descriptor : String) : Prop :=
  ∃ s : Signature, s.Writes descriptor ∧ (l.Legal → s.Legal)

def Standard (l : SupportLibrary) : Operation → Prop
  | areturn | getStatic _ => False
  | invokeVirtual method | invokeStatic method => Supports l method.descriptor
  | invokeDynamic site => Supports l site.descriptor
  | _ => True

variable {l : SupportLibrary}

theorem Standard.readable {op : Operation} (h : op.Standard l) (hl : l.Legal) : op.Readable := by
  have hlegible {descriptor : String} (hs : Supports l descriptor) : Legible descriptor := by
    obtain ⟨s, hs, hlegal⟩ := hs
    exact hs.legible (hlegal hl)
  cases op with
  | invokeVirtual method | invokeStatic method => exact hlegible h
  | invokeDynamic site => exact hlegible h
  | _ => trivial

theorem Standard.narrow {op : Operation} (h : op.Standard l) : op.Narrow := by
  have hwrites {descriptor : String} (hs : Supports l descriptor) :
      ∀ d, MethodDescriptor.parse descriptor = .ok d →
        ∀ t, d.result = some t → (VerificationType.ofFieldType t).isWide = false := by
    obtain ⟨s, hs, -⟩ := hs
    intro d hd t ht
    have href := (Signature.parse hs.1 hs.2 hd).2.2 t ht
    cases t <;> first | rfl | cases href
  cases op with
  | invokeVirtual method | invokeStatic method => exact hwrites h
  | invokeDynamic site => exact hwrites h
  | getStatic field => cases h
  | _ => trivial

theorem Standard.ne_areturn {op : Operation} (h : op.Standard l) : op ≠ .areturn := by
  rintro rfl
  exact h

/-- An operation that is carried out can be read, and control goes on behind it unless it
returns. -/
theorem readable_of_step {op : Operation} {d : Draft} (hr : d.reachable = true)
    (hf : (d.step op.step).fault = none) :
    op.Readable ∧ (op ≠ .areturn → (d.step op.step).reachable = true) := by
  rcases step_operation hr op hf with ⟨h, number, rfl⟩ | h | ⟨rfl, h, -⟩
  · exact ⟨trivial, fun _ => by rw [h]; exact hr⟩
  · refine ⟨?_, fun hop => by rw [h.reachable, endsFlow_instruction hop]; rfl⟩
    have heffect := h.effect
    cases op with
    | invokeVirtual method | invokeStatic method =>
      obtain ⟨descriptor, hd, -⟩ := Option.bind_eq_some_iff.1 heffect
      exact ⟨descriptor, eq_ok_of_toOption hd⟩
    | invokeDynamic site =>
      obtain ⟨descriptor, hd, -⟩ := Option.bind_eq_some_iff.1 heffect
      exact ⟨descriptor, eq_ok_of_toOption hd⟩
    | _ => trivial
  · exact ⟨trivial, fun _ => h.reachable⟩

end Operation

theorem readable_of_runOperations {operations : List Operation} {d : Draft}
    (ho : ∀ op ∈ operations, op ≠ .areturn) (hr : d.reachable = true)
    (hf : (d.runOperations operations).fault = none) :
    (∀ op ∈ operations, op.Readable) ∧ (d.runOperations operations).reachable = true := by
  induction operations generalizing d with
  | nil => exact ⟨by simp, hr⟩
  | cons op operations ih =>
    obtain ⟨hop, hrest⟩ := List.forall_mem_cons.1 ho
    obtain ⟨hread, hreach⟩ := Operation.readable_of_step hr (Draft.fault_run hf)
    obtain ⟨hreads, hreached⟩ := ih hrest (hreach hop) hf
    exact ⟨List.forall_mem_cons.2 ⟨hread, hreads⟩, hreached⟩

namespace Code

variable (env : Env)

/-- Code without answers runs through, so all its descriptors can be read. -/
theorem readable_of_run {c : Code} {d : Draft} (hc : c.All (· ≠ .areturn))
    (hr : d.reachable = true) (hf : (c.run env d).fault = none) :
    c.All Operation.Readable ∧ (c.run env d).reachable = true := by
  induction c generalizing d with
  | operations ops => exact readable_of_runOperations hc hr hf
  | append first second ihFirst ihSecond =>
    obtain ⟨hfirst, hr₁⟩ := ihFirst hc.1 hr (fault_run env hf)
    obtain ⟨hsecond, hr₂⟩ := ihSecond hc.2 hr₁ hf
    exact ⟨⟨hfirst, hsecond⟩, hr₂⟩
  | marker name => exact ⟨trivial, hr⟩
  | region span body ih =>
    obtain ⟨hbody, hr₁⟩ := ih hc (by rwa [openRegion_eq]) (fault_closeRegion env hf)
    refine ⟨hbody, ?_⟩
    by_cases hm : body.markers = []
    · simpa [run, Draft.closeRegion, hm] using hr₁
    · exact (closeRegion_closes env d.nextLabel span hm hf).reachable.trans hr₁
  | statement isLast body ih =>
    obtain ⟨hbody, hr₁⟩ := ih hc hr (Draft.fault_run hf)
    refine ⟨hbody, (readable_of_runOperations ?_ hr₁ hf).2⟩
    intro op hop
    unfold settling at hop
    split_ifs at hop
    · simp only [nilOperations, List.mem_cons, List.not_mem_nil, or_false] at hop
      rcases hop with rfl | rfl <;> simp
    · cases hop
    · rw [List.eq_of_mem_replicate hop]
      simp

end Code

section

variable {V W : Type} (rt : Runtime V W) (locals : List V)

theorem ofCall_pure {α : Type} (a : α) : ofCall (pure a : EStateM V W α) = pure a := rfl

theorem ofCall_map {α β : Type} (f : α → β) (x : EStateM V W α) :
    ofCall (f <$> x) = f <$> ofCall x := by
  funext world
  change ofCall (EStateM.map f x) world = EStateM.map f (ofCall x) world
  unfold EStateM.map ofCall
  beta_reduce
  cases x world <;> rfl

theorem evalOperations_nil (stack : List V) : evalOperations rt locals [] stack = pure stack := rfl

theorem evalOperations_cons (op : Operation) (operations : List Operation) (stack : List V) :
    evalOperations rt locals (op :: operations) stack =
      op.eval rt locals stack >>= evalOperations rt locals operations := rfl

theorem evalOperations_singleton (op : Operation) :
    evalOperations rt locals [op] = op.eval rt locals := by
  funext stack
  rw [evalOperations_cons]
  exact bind_pure _

theorem eval_line (number : Nat) (stack : List V) :
    (Operation.line number).eval rt locals stack = pure stack := rfl

theorem eval_dup (v : V) (stack : List V) :
    Operation.dup.eval rt locals (v :: stack) = pure (v :: v :: stack) := rfl

theorem eval_discard (v : V) (stack : List V) :
    Operation.discard.eval rt locals (v :: stack) = pure stack := rfl

theorem eval_areturn (v : V) (stack : List V) :
    Operation.areturn.eval rt locals (v :: stack) = throw (.answered v) := rfl

theorem eval_string (text : String) (stack : List V) :
    (Operation.string text).eval rt locals stack = pure (rt.text text :: stack) := rfl

theorem eval_int (n : Int32) (stack : List V) :
    (Operation.int n).eval rt locals stack = pure (rt.number n :: stack) := by
  have hexec : (Operation.int n).instruction.exec rt locals stack =
      some (pure (rt.number n :: stack)) := exec_intInstruction rt locals n stack
  rw [Operation.eval_of_exec rt locals (by simp) hexec, ofCall_pure]

theorem eval_load {slot : UInt16} {v : V} (h : locals[slot.toNat]? = some v) (stack : List V) :
    (Operation.load slot).eval rt locals stack = pure (v :: stack) := by
  have hexec : (Operation.load slot).instruction.exec rt locals stack =
      some (pure (v :: stack)) := by
    simp [Operation.instruction, Instruction.exec, h]
  rw [Operation.eval_of_exec rt locals (by simp) hexec, ofCall_pure]

theorem callWith_append (operands : List V) {n : Nat} (hn : n = operands.length) (returns : Bool)
    (call : List V → EStateM V W V) (stack : List V) :
    callWith n returns call (operands.reverse ++ stack) =
      some ((fun v => if returns then v :: stack else stack) <$> call operands) := by
  subst hn
  rw [callWith, if_pos (by simp), List.drop_left' (by simp), List.take_left' (by simp),
    List.reverse_reverse]

section

variable (s : Signature) (method : MemberRef)

/-- An operation that calls takes the operands of the call off the stack: the arguments, of which
there are as many as the signature has parameters, and the receivers. -/
theorem eval_call (op : Operation) (receivers : Nat) (call : List V → EStateM V W V)
    {descriptor : String} (hop : op ≠ .areturn)
    (hexec : ∀ d stack, MethodDescriptor.parse descriptor = .ok d →
      op.instruction.exec rt locals stack =
        callWith (d.parameters.length + receivers) d.result.isSome call stack)
    (hs : s.Writes descriptor) (hl : Legible descriptor) (operands : List V)
    (hn : s.parameters.length + receivers = operands.length) (stack : List V) :
    op.eval rt locals (operands.reverse ++ stack) =
      (fun v => if s.result.isSome then v :: stack else stack) <$> ofCall (call operands) := by
  obtain ⟨d, hd⟩ := hl
  obtain ⟨hlength, hresult, -⟩ := Signature.parse hs.1 hs.2 hd
  rw [← ofCall_map, ← hresult]
  apply Operation.eval_of_exec rt locals hop
  rw [hexec d _ hd]
  exact callWith_append operands (by rw [hlength, hn]) _ _ _

theorem eval_invokeVirtual (hs : s.Writes method.descriptor) (hl : Legible method.descriptor)
    (receiver : V) (arguments : List V) (hn : s.parameters.length = arguments.length)
    (stack : List V) :
    (Operation.invokeVirtual method).eval rt locals (arguments.reverse ++ receiver :: stack) =
      (fun v => if s.result.isSome then v :: stack else stack) <$>
        ofCall (rt.call .invokevirtual method (receiver :: arguments)) := by
  have heval := eval_call rt locals s (.invokeVirtual method) 1 (rt.call .invokevirtual method)
    (by simp) (fun d stack hd => by
      simp [Operation.instruction, Instruction.exec, hd, Except.toOption])
    hs hl (receiver :: arguments) (congrArg (· + 1) hn) stack
  rwa [List.reverse_cons, List.append_assoc, List.singleton_append] at heval

theorem eval_invokeStatic (hs : s.Writes method.descriptor) (hl : Legible method.descriptor)
    (arguments : List V) (hn : s.parameters.length = arguments.length) (stack : List V) :
    (Operation.invokeStatic method).eval rt locals (arguments.reverse ++ stack) =
      (fun v => if s.result.isSome then v :: stack else stack) <$>
        ofCall (rt.call .invokestatic method arguments) :=
  eval_call rt locals s (.invokeStatic method) 0 (rt.call .invokestatic method) (by simp)
    (fun d stack hd => by simp [Operation.instruction, Instruction.exec, hd, Except.toOption])
    hs hl arguments hn stack

theorem eval_invokeDynamic {site : CallSite} (hs : s.Writes site.descriptor)
    (hl : Legible site.descriptor) (arguments : List V)
    (hn : s.parameters.length = arguments.length) (stack : List V) :
    (Operation.invokeDynamic site).eval rt locals (arguments.reverse ++ stack) =
      (fun v => if s.result.isSome then v :: stack else stack) <$>
        ofCall (rt.link site arguments) :=
  eval_call rt locals s (.invokeDynamic site) 0 (rt.link site) (by simp)
    (fun d stack hd => by simp [Operation.instruction, Instruction.exec, hd, Except.toOption])
    hs hl arguments hn stack

end

end

section

variable {V W : Type} (env : Env) (rt : Runtime V W) (locals : List V) (act : Activation V)

/-- Code that takes some values off the stack and puts one there. -/
def Yields (c : Code) (taken : List V) (value : Eval V W V) : Prop :=
  ∀ stack, c.eval env rt locals (taken ++ stack) = (· :: stack) <$> value

theorem Yields.append {first second : Code} {taken : List V} {x : Eval V W V}
    {f : V → Eval V W V} (h : Yields env rt locals first taken x)
    (k : ∀ v, Yields env rt locals second [v] (f v)) :
    Yields env rt locals (.append first second) taken (x >>= f) := by
  intro stack
  have hsecond (v : V) : second.eval env rt locals (v :: stack) = (· :: stack) <$> f v := k v stack
  simp only [Code.eval, h stack, bind_map_left, hsecond, map_bind]

theorem answerOf_map {α β : Type} (marker : String) (exception : V) (f : α → β) :
    f <$> (answerOf env rt marker exception : Eval V W α) = answerOf env rt marker exception := by
  rw [answerOf, answerOf, map_bind]
  rfl

theorem catchAnswers_map {α β : Type} (markers : List String) (f : α → β) (body : Eval V W α) :
    catchAnswers env rt markers (f <$> body) = f <$> catchAnswers env rt markers body := by
  funext world
  change catchAnswers env rt markers (EStateM.map f body) world =
    EStateM.map f (catchAnswers env rt markers body) world
  unfold EStateM.map catchAnswers
  beta_reduce
  cases body world with
  | ok a world' => rfl
  | error e world' =>
    cases e with
    | answered v => rfl
    | thrown exception =>
      dsimp only
      cases markers.find? (rt.isInstance · exception) with
      | none => rfl
      | some marker => exact (congrFun (answerOf_map env rt marker exception f) world').symm

theorem Yields.region {body : Code} {taken : List V} {x : Eval V W V}
    (h : Yields env rt locals body taken x) (span : Span) :
    Yields env rt locals (.region span body) taken (catchAnswers env rt body.markers x) := by
  intro stack
  rw [Code.eval, h stack, catchAnswers_map]

theorem Yields.line {operations : List Operation} {taken : List V} {x : Eval V W V}
    (h : Yields env rt locals (.operations operations) taken x) (number : Nat) :
    Yields env rt locals (.operations (.line number :: operations)) taken x := h

section

variable {ps : List Parameter} (name : String) {descriptor : String}

theorem eval_object (hw : Signature.Writes ⟨ps, some env.library.object⟩ descriptor)
    (hl : Legible descriptor) (receiver : V) (arguments : List V)
    (hn : ps.length = arguments.length) (stack : List V) :
    (Operation.object env name descriptor).eval rt locals (arguments.reverse ++ receiver :: stack) =
      (· :: stack) <$> rt.onObject env name descriptor receiver arguments :=
  eval_invokeVirtual rt locals ⟨ps, some env.library.object⟩
    ⟨env.library.object, name, descriptor⟩ hw
    hl receiver arguments hn stack

theorem eval_context (hw : Signature.Writes ⟨ps, some env.library.object⟩ descriptor)
    (hl : Legible descriptor) (arguments : List V) (hn : ps.length = arguments.length)
    (stack : List V) :
    (Operation.context env name descriptor).eval rt locals
        (arguments.reverse ++ act.context :: stack) =
      (· :: stack) <$> rt.onContext env act name descriptor arguments :=
  eval_invokeVirtual rt locals ⟨ps, some env.library.object⟩
    ⟨env.library.context, name, descriptor⟩ hw
    hl act.context arguments hn stack

end

end

def Activation.locals {V : Type} (act : Activation V) (first : V) : List V :=
  [first, act.self, act.context]

section

variable {V W : Type} (env : Env) (rt : Runtime V W) (act : Activation V) (first : V)

theorem eval_self (stack : List V) :
    (Operation.load 1).eval rt (act.locals first) stack = pure (act.self :: stack) :=
  eval_load rt _ rfl stack

theorem eval_activation (stack : List V) :
    (Operation.load 2).eval rt (act.locals first) stack = pure (act.context :: stack) :=
  eval_load rt _ rfl stack

theorem yields_fixed {accessor : String}
    (h : ∀ op ∈ Operation.fixed env accessor, op.Readable) :
    Yields env rt (act.locals first) (.operations (Operation.fixed env accessor)) []
      (rt.fixed env act accessor) := by
  intro stack
  rw [Code.eval, Operation.fixed, evalOperations_cons, eval_self, pure_bind,
    evalOperations_singleton]
  exact eval_object env rt _ _ (writes_fixed env.library) (h _ (.tail _ (.head _))) act.self [] rfl
    stack

theorem yields_literal {kind : LiteralKind} {text : String}
    (h : ∀ op ∈ Operation.literal env kind text, op.Readable) :
    Yields env rt (act.locals first) (.operations (Operation.literal env kind text)) []
      (rt.literal env act kind text) := by
  intro stack
  rw [Code.eval, Operation.literal, evalOperations_cons, eval_self, pure_bind, evalOperations_cons,
    eval_string, pure_bind, evalOperations_singleton]
  exact eval_object env rt _ _ (writes_ofObject env.library) (h _ (.tail _ (.tail _ (.head _))))
    act.self [rt.text text] rfl stack

theorem yields_pseudo {word : Pseudo} (h : ∀ op ∈ Operation.pseudo env word, op.Readable) :
    Yields env rt (act.locals first) (.operations (Operation.pseudo env word)) []
      (rt.pseudo env act word) := by
  cases word with
  | self | super =>
    intro stack
    rw [Code.eval, Operation.pseudo, evalOperations_singleton, eval_self]
    rfl
  | nil | true | false => exact yields_fixed env rt act first h

theorem yields_slot {accessor : String} {n : UInt16}
    (h : ∀ op ∈ Operation.slot env accessor n, op.Readable) :
    Yields env rt (act.locals first) (.operations (Operation.slot env accessor n)) []
      (rt.onContext env act accessor s!"(I){env.library.objectType}" [rt.slot n]) := by
  intro stack
  rw [Code.eval, Operation.slot, evalOperations_cons, eval_activation, pure_bind,
    evalOperations_cons, eval_int, pure_bind, evalOperations_singleton]
  exact eval_context env rt _ act _ (writes_ofInt env.library) (h _ (.tail _ (.tail _ (.head _))))
    [rt.slot n] rfl stack

theorem yields_reference {name : String} {v : Variable} (hfits : v.Fits)
    (h : ∀ op ∈ Operation.reference env name v.resolution, op.Readable) :
    Yields env rt (act.locals first) (.operations (Operation.reference env name v.resolution)) []
      (rt.reference env act name v) := by
  cases v with
  | temporary place | argument place =>
    have hslot := yields_slot env rt act first h
    rw [UInt16.toNat_ofNat_of_lt' hfits] at hslot
    exact hslot
  | global =>
    intro stack
    rw [Code.eval, Variable.resolution, Operation.reference, Operation.global, evalOperations_cons,
      eval_self, pure_bind, evalOperations_cons, eval_string, pure_bind, evalOperations_singleton]
    exact eval_object env rt _ _ (writes_ofString env.library) (h _ (.tail _ (.tail _ (.head _))))
      act.self [rt.text name] rfl stack

theorem yields_block {literal : BlockLiteral} {name : String}
    (h : ∀ op ∈ Operation.block env literal name, op.Readable) :
    Yields env rt (act.locals first) (.operations (Operation.block env literal name)) []
      (rt.block env act literal name) := by
  rw [Operation.block, List.forall_mem_append] at h
  obtain ⟨hmake, hgive⟩ := h
  intro stack
  have hsite : (Operation.invokeDynamic (blockSite env name)).eval rt (act.locals first)
      (act.self :: stack) =
      (· :: act.self :: stack) <$> ofCall (rt.link (blockSite env name) []) :=
    eval_invokeDynamic rt (act.locals first) _ (writes_class env.library.lambdaBlock)
      (hmake _ (.tail _ (.tail _ (.head _)))) [] rfl _
  rw [Code.eval, Operation.block, List.cons_append, List.cons_append, List.singleton_append,
    evalOperations_cons, List.nil_append, eval_line, pure_bind, evalOperations_cons, eval_self,
    pure_bind, evalOperations_cons, hsite, bind_map_left, Runtime.block, map_bind]
  refine bind_congr fun method => ?_
  have hobject {accessor : String} (hl : Legible s!"(Ljava/lang/Object;){env.library.objectType}") :
      (Operation.object env accessor _).eval rt (act.locals first) (method :: act.self :: stack) =
        (· :: stack) <$> rt.onObject env accessor _ act.self [method] :=
    eval_object env rt _ accessor (writes_ofObject env.library) hl act.self [method] rfl stack
  cases hrole : literal.role with
  | method =>
    simp only [hrole] at hgive
    simp only [evalOperations_singleton]
    exact hobject (hgive _ (.head _))
  | value =>
    cases hanswers : literal.body.answers with
    | true =>
      simp only [hrole, hanswers] at hgive
      simp only [evalOperations_cons, eval_string, pure_bind, evalOperations_singleton]
      exact eval_object env rt _ _ (writes_blockAnswer env.library) (hgive _ (.tail _ (.head _)))
        act.self [method, rt.text _] rfl stack
    | false =>
      simp only [hrole, hanswers] at hgive
      simp only [evalOperations_singleton]
      exact hobject (hgive _ (.head _))

/-- Storing keeps the value on the stack. -/
theorem yields_assign (hl : env.library.Plain) {n : UInt16}
    (h : ∀ op ∈ Operation.assign env n, op.Readable) (v : V) :
    Yields env rt (act.locals first) (.operations (Operation.assign env n)) [v]
      (do let _ ← rt.store env act n v; return v) := by
  intro stack
  rw [Code.eval, Operation.assign, List.singleton_append, evalOperations_cons, eval_dup, pure_bind,
    evalOperations_cons, eval_int, pure_bind, evalOperations_cons, eval_activation, pure_bind,
    evalOperations_singleton]
  have hstore := eval_invokeStatic rt (act.locals first) _ _ (writes_store hl)
    (h _ (.tail _ (.tail _ (.tail _ (.head _))))) [v, rt.slot n, act.context] rfl (v :: stack)
  refine hstore.trans ?_
  simp only [Option.isSome_none, Bool.false_eq_true, ↓reduceIte, Runtime.store, bind_pure_comp,
    Functor.map_map]

theorem eval_initTemporaries {count : UInt16}
    (h : ∀ op ∈ Operation.initTemporaries env count, op.Readable) (stack : List V) :
    evalOperations rt (act.locals first) (Operation.initTemporaries env count) stack =
      (fun _ => stack) <$> rt.initTemporaries env act count := by
  rw [Operation.initTemporaries, evalOperations_cons, eval_activation, pure_bind,
    evalOperations_cons, eval_int, pure_bind, evalOperations_singleton]
  exact eval_invokeVirtual rt _ _ _ writes_count (h _ (.tail _ (.tail _ (.head _)))) act.context
    [rt.slot count] rfl stack

theorem yields_dispatch (hl : env.library.Plain) {selector : String} {arity : Nat} {r : Receiver}
    {span : Span} (h : ∀ op ∈ Operation.dispatch env selector arity r span, op.Readable)
    (receiver : V) (arguments : List V) (hn : arguments.length = arity) :
    Yields env rt (act.locals first) (.operations (Operation.dispatch env selector arity r span))
      (arguments.reverse ++ [receiver])
      (rt.send env (decide (r = .super)) selector receiver arguments) := by
  subst hn
  intro stack
  have hcall := eval_object env rt (act.locals first)
    (if r = .super then "superPerform" else "perform") (writes_send hl arguments.length)
    (h _ (.tail _ (.tail _ (.head _)))) receiver (arguments ++ [rt.text selector]) (by simp) stack
  rw [Code.eval, Operation.dispatch, evalOperations_cons, eval_line, pure_bind,
    evalOperations_cons, eval_string, pure_bind, evalOperations_singleton]
  simpa [Runtime.send] using hcall

end

namespace Operation

variable (env : Env)

theorem supports_object {ps : List Parameter} {descriptor : String}
    (h : Signature.Writes ⟨ps, some env.library.object⟩ descriptor)
    (hp : ∀ p ∈ ps, p.Legal) : Supports env.library descriptor :=
  ⟨_, h, fun hl => ⟨hp, by rintro name ⟨⟩; exact ⟨hl.object.1, hl.object.2.1⟩⟩⟩

theorem supports_block : Supports env.library s!"()L{env.library.lambdaBlock};" := by
  refine ⟨_, writes_class env.library.lambdaBlock, fun hl => ⟨by simp, ?_⟩⟩
  rintro name ⟨⟩
  exact ⟨hl.lambdaBlock.1, hl.lambdaBlock.2.1⟩

theorem supports_count : Supports env.library "(I)V" :=
  ⟨_, writes_count, fun _ => ⟨by simp [Parameter.Legal], by rintro name ⟨⟩⟩⟩

theorem supports_store (hl : env.library.Plain) : Supports env.library
    s!"({env.library.objectType}I{env.library.contextType})V" := by
  refine ⟨_, writes_store hl, fun hlegal => ⟨?_, by rintro name ⟨⟩⟩⟩
  simp only [List.forall_mem_cons]
  exact ⟨⟨hlegal.object.1, hlegal.object.2.2⟩, trivial, ⟨hlegal.context.1, hlegal.context.2.2⟩,
    by simp⟩

theorem supports_send (hl : env.library.Plain) (arity : Nat) :
    Supports env.library (env.library.sendDescriptor arity) := by
  refine ⟨_, writes_send hl arity, fun hlegal => ⟨?_, ?_⟩⟩
  · intro p hp
    rcases List.mem_append.1 hp with hp | hp
    · rw [List.eq_of_mem_replicate hp]
      exact ⟨hlegal.object.1, hlegal.object.2.2⟩
    · rw [List.mem_singleton.1 hp]
      simp [Parameter.Legal]
  · rintro name ⟨⟩
    exact ⟨hlegal.object.1, hlegal.object.2.1⟩

theorem standard_fixed (accessor : String) :
    ∀ op ∈ fixed env accessor, op.Standard env.library := by
  simp only [fixed, List.forall_mem_cons]
  have hcall := supports_object env (writes_fixed env.library) (by simp [Parameter.Legal])
  exact ⟨trivial, hcall, by simp⟩

theorem standard_literal (kind : LiteralKind) (text : String) :
    ∀ op ∈ literal env kind text, op.Standard env.library := by
  simp only [literal, List.forall_mem_cons]
  have hcall := supports_object env (writes_ofObject env.library) (by simp [Parameter.Legal])
  exact ⟨trivial, trivial, hcall, by simp⟩

theorem standard_pseudo (word : Pseudo) : ∀ op ∈ pseudo env word, op.Standard env.library := by
  cases word with
  | self | super => simp [pseudo, Standard]
  | nil | true | false => exact standard_fixed env _

theorem standard_reference (name : String) (resolution : Resolution) :
    ∀ op ∈ reference env name resolution, op.Standard env.library := by
  cases resolution with
  | temporary n | argument n =>
    simp only [reference, slot, List.forall_mem_cons]
    have hcall := supports_object env (writes_ofInt env.library) (by simp [Parameter.Legal])
    exact ⟨trivial, trivial, hcall, by simp⟩
  | unresolved =>
    simp only [reference, global, List.forall_mem_cons]
    have hcall := supports_object env (writes_ofString env.library) (by simp [Parameter.Legal])
    exact ⟨trivial, trivial, hcall, by simp⟩

theorem standard_block (literal : BlockLiteral) (name : String) :
    ∀ op ∈ block env literal name, op.Standard env.library := by
  simp only [block, List.forall_mem_append, List.forall_mem_cons]
  have hobject := supports_object env (writes_ofObject env.library) (by simp [Parameter.Legal])
  have hanswer := supports_object env (writes_blockAnswer env.library) (by simp [Parameter.Legal])
  refine ⟨⟨trivial, trivial, supports_block env, by simp⟩, ?_⟩
  split
  · exact List.forall_mem_singleton.2 hobject
  · exact List.forall_mem_cons.2 ⟨trivial, List.forall_mem_singleton.2 hanswer⟩
  · exact List.forall_mem_singleton.2 hobject

theorem standard_assign (hl : env.library.Plain) (n : UInt16) :
    ∀ op ∈ assign env n, op.Standard env.library := by
  simp only [assign, List.forall_mem_cons]
  exact ⟨trivial, trivial, trivial, supports_store env hl, by simp⟩

theorem standard_declarations (temporaries : List Ident) :
    ∀ op ∈ declarations env temporaries, op.Standard env.library := by
  cases temporaries with
  | nil => simp [declarations]
  | cons first rest =>
    simp only [declarations, initTemporaries, List.forall_mem_cons]
    exact ⟨trivial, trivial, trivial, supports_count env, by simp⟩

theorem standard_dispatch (hl : env.library.Plain) (selector : String) (arity : Nat) (r : Receiver)
    (span : Span) : ∀ op ∈ dispatch env selector arity r span, op.Standard env.library := by
  simp only [dispatch, List.forall_mem_cons]
  exact ⟨trivial, trivial, supports_send env hl arity, by simp⟩

end Operation

end SmalltalkJvm
