import SmalltalkJvm.Proofs.Calls
import SmalltalkJvm.Proofs.StackMaps

/-! # Types on the way through code

What running structured code does to the types on the stack, said forwards: from a draft that is in
order, code whose instructions have the effects they should have gives a draft that is in order.
With the types come the demands on them: that every call finds values that may stand for its
receiver and its parameters, and every return a value of the type that is declared.
-/

namespace SmalltalkJvm

open Draft

def VerificationType.isReference : VerificationType → Bool
  | object _ | null => true
  | _ => false

/-- A value may stand where a type is declared: if it has that type; if the type is that of all
objects; and if it is the unit's own object, whose superclass is known. -/
def VerificationType.AssignableTo (env : Env) (t : VerificationType) (declared : FieldType) :
    Prop :=
  t = .ofFieldType declared ∨
    (t.isReference = true ∧ declared = .reference "java/lang/Object") ∨
    (t = .object env.unit.internal ∧ declared = .reference env.library.object)

instance (env : Env) (t : VerificationType) (declared : FieldType) :
    Decidable (t.AssignableTo env declared) :=
  inferInstanceAs (Decidable (_ ∨ _))

/-- A constructor is called on an object that is not constructed yet, any other method on an object
of its class. -/
def VerificationType.Receives (env : Env) (op : Opcode) (method : MemberRef)
    (t : VerificationType) : Prop :=
  if op = .invokespecial ∧ method.name = "<init>" then
    t = .uninitializedThis ∨ ∃ creation, t = .uninitialized creation
  else t.AssignableTo env (.reference method.owner)

/-- An instruction finds values of the declared types: a call its receiver, unless it is static, and
its parameters, the last one on top, and a return the value that a method with the given result
returns. -/
def Instruction.WellTyped (env : Env) (result : Option FieldType) (f : Flow) : Instruction → Prop
  | .invoke op method =>
    ∃ d arguments receiver rest, MethodDescriptor.parse method.descriptor = .ok d ∧
      f.stack = arguments.reverse ++ (receiver ++ rest) ∧
      List.Forall₂ (VerificationType.AssignableTo env) arguments d.parameters ∧
      if op = .invokestatic then receiver = [] else ∃ t, receiver = [t] ∧ t.Receives env op method
  | .dynamic site =>
    ∃ d arguments rest, MethodDescriptor.parse site.descriptor = .ok d ∧
      f.stack = arguments.reverse ++ rest ∧
      List.Forall₂ (VerificationType.AssignableTo env) arguments d.parameters
  | .plain .areturn =>
    ∃ t rest type, f.stack = t :: rest ∧ result = some type ∧ t.AssignableTo env type
  | .plain .returnVoid => result = none
  | _ => True

namespace Draft

section

variable {d : Draft}

theorem fault_popMany_of_le {op : Opcode} {n : Nat} (h : n ≤ d.stack.entries.length) :
    (d.popMany op n).fault = d.fault := by
  induction n generalizing d with
  | zero => rfl
  | succ n ih =>
    cases hs : d.stack.entries with
    | nil => simp [hs] at h
    | cons t rest =>
      rw [hs, List.length_cons] at h
      rw [popMany, pop_of_cons hs]
      exact ih (d := { d with stack := .ofList rest }) (Nat.le_of_succ_le_succ h)

theorem fault_popReceiver_of_receive {this : Option String} {op : Opcode} {method : MemberRef}
    {f : Flow} (h : d.flow.receive? this op method = some f) :
    (d.popReceiver op method).fault = d.fault := by
  by_cases hop : op = .invokestatic
  · simp [popReceiver, hop]
  · cases hs : d.stack.entries with
    | nil => simp [Flow.receive?, hop, flow, hs] at h
    | cons t rest =>
      simp only [popReceiver, hop, ↓reduceIte, pop_of_cons hs]
      split_ifs
      · exact (flow_construct _ t method.owner).2.2
      · rfl

theorem exists_cons_of_drop? {f f' : Flow} (h : f.drop? 1 = some f') :
    ∃ t rest, f.stack = t :: rest := by
  cases hs : f.stack with
  | nil => simp [Flow.drop?, hs] at h
  | cons t rest => exact ⟨t, rest, rfl⟩

/-- An instruction without operands that has an effect is no fault. -/
theorem fault_plain_of_effect (hr : d.reachable = true) {op : Opcode} {f : Flow}
    (h : d.flow.plain? op = some f) : (d.plain op).fault = d.fault := by
  cases op <;> simp only [Flow.plain?, reduceCtorEq] at h
  case pop | areturn | athrow =>
    obtain ⟨t, rest, hs⟩ := exists_cons_of_drop? h
    simp [plain, hr, standsAlone, operate, pop_of_cons hs, append]
  case pop2 =>
    cases hs : d.stack.entries with
    | nil => simp [flow, hs] at h
    | cons t rest =>
      simp only [flow, hs] at h
      simp only [plain, hr, standsAlone, operate, pop_of_cons hs, ↓reduceIte]
      by_cases hw : t.isWide = true
      · simp [hw, append]
      · cases rest with
        | nil => simp [hw, Flow.drop?] at h
        | cons u rest =>
          simp only [hw, Bool.false_eq_true, ↓reduceIte]
          rw [pop_of_cons (show _ = u :: rest from rfl)]
          rfl
  case dup =>
    cases hs : d.stack.entries with
    | nil => simp [flow, hs] at h
    | cons t rest => simp [plain, hr, standsAlone, operate, pop_of_cons hs, append, push, setStack]
  case dupX1 | swap =>
    rcases hs : d.stack.entries with _ | ⟨t, _ | ⟨u, rest⟩⟩
    · simp [flow, hs] at h
    · simp [flow, hs] at h
    · simp only [plain, hr, standsAlone, operate, pop_of_cons hs, ↓reduceIte]
      rfl
  all_goals simp [plain, hr, standsAlone, operate, append, push, setStack]

/-- A step whose instruction has an effect is no fault. -/
theorem fault_step_of_effect (hr : d.reachable = true) (hf : d.fault = none) {s : Step}
    {i : Instruction} (hs : s.instruction? = some i) {f : Flow}
    (h : i.effect? d.thisClass d.code.size d.flow = some f) : (d.step s).fault = none := by
  cases s <;> cases hs
  case plain op => exact (fault_plain_of_effect hr h).trans hf
  case int value => simp [step, pushInt, hr, append, push, setStack, hf]
  case string text => simp [step, pushString, hr, append, push, setStack, hf]
  case load slot =>
    obtain ⟨t, ht, -⟩ := Option.map_eq_some_iff.1 h
    have hlocal : d.locals[slot.toNat]? = some t := ht
    simp [step, load, hr, hlocal, append, push, setStack, hf]
  case store slot =>
    cases hst : d.stack.entries with
    | nil => simp [Instruction.effect?, flow, hst] at h
    | cons t rest => simp [step, store, hr, pop_of_cons hst, setLocal, append, hf]
  case create className => simp [step, create, hr, append, push, setStack, hf]
  case getStatic field =>
    obtain ⟨t, ht, -⟩ := Option.map_eq_some_iff.1 h
    simp [step, getStatic, hr, eq_ok_of_toOption ht, append, push, setStack, hf]
  case invoke op method =>
    obtain ⟨descriptor, f₁, f₂, hd, hdrop, hreceive, -⟩ := Instruction.effect?_invoke _ h
    have hlength : descriptor.parameters.length ≤ d.stack.entries.length := by
      have : f₁.stack.length + _ = d.stack.entries.length := Flow.length_drop? hdrop
      omega
    have hpopped : (d.popMany op descriptor.parameters.length).fault = none :=
      (fault_popMany_of_le hlength).trans hf
    obtain ⟨hflow, hkeeps⟩ := popMany_effect hpopped
    rw [hdrop, Option.some.injEq] at hflow
    rw [hflow, ← hkeeps.thisClass] at hreceive
    have hreceived := (fault_popReceiver_of_receive hreceive).trans hpopped
    have hresult := (pushResult_effect ((d.popMany op descriptor.parameters.length).popReceiver op
      method) descriptor.result).2.2.trans hreceived
    simpa [step, invoke, hr, hd, append] using hresult
  case invokeDynamic site =>
    obtain ⟨descriptor, hd, h⟩ := Option.bind_eq_some_iff.1 h
    obtain ⟨f₁, hdrop, -⟩ := Option.map_eq_some_iff.1 h
    have hlength : descriptor.parameters.length ≤ d.stack.entries.length := by
      have : f₁.stack.length + _ = d.stack.entries.length := Flow.length_drop? hdrop
      omega
    have hresult := (pushResult_effect (d.popMany .invokedynamic descriptor.parameters.length)
      descriptor.result).2.2.trans ((fault_popMany_of_le hlength).trans hf)
    simpa [step, invokeDynamic, hr, eq_ok_of_toOption hd, append] using hresult

/-- A draft in order, which goes on with the types given and has kept its local variables. -/
structure At (d : Draft) (f : Flow) : Prop where
  reachable : d.reachable = true
  fault : d.fault = none
  flow : d.flow = f
  entry : d.entryLocals = f.locals

structure Over (d : Draft) : Prop where
  reachable : d.reachable = false
  fault : d.fault = none

theorem At.performs {f : Flow} (h : d.At f) {d' : Draft} {i : Instruction}
    (hp : d.Performs i d') (hf : d'.fault = none) (hi : i.keepsLocals = true)
    (hends : i.endsFlow = false) : d'.At d'.flow :=
  ⟨by rw [hp.reachable, hends]; rfl, hf, rfl, by
    rw [hp.entryLocals, h.entry, ← h.flow]; exact (hp.locals hi).symm⟩

end

end Draft

namespace Operation

theorem effect?_eq (op : Operation) (this : Option String) (place : Nat) (f : Flow) :
    op.instruction.effect? this place f = op.instruction.effect? none 0 f := by
  cases op with
  | int value => simp only [instruction, effect?_intInstruction]
  | invokeVirtual method | invokeStatic method =>
    simp [instruction, Instruction.effect?, Flow.receive?]
  | _ => rfl

/-- What an operation that control goes on from does to the types on the stack, if they are as it
asks. -/
structure Turns (P : Flow → Instruction → Prop) (locals : List VerificationType) (op : Operation)
    (s s' : List VerificationType) : Prop where
  effect : op.instruction.effect? none 0 ⟨s, locals⟩ = some ⟨s', locals⟩
  continues : op ≠ .areturn
  narrow : op = .discard → ∀ t ∈ s.head?, t.isWide = false
  holds : P ⟨s, locals⟩ op.instruction

def TurnAll (P : Flow → Instruction → Prop) (locals : List VerificationType) :
    List Operation → List VerificationType → List VerificationType → Prop
  | [], s, s' => s = s'
  | op :: operations, s, s' =>
    ∃ middle, op.Turns P locals s middle ∧ TurnAll P locals operations middle s'

variable {P : Flow → Instruction → Prop} {locals s s' : List VerificationType}

theorem step_of_narrow {d : Draft} {t : VerificationType} {rest : List VerificationType}
    (hs : d.stack.entries = t :: rest) (ht : t.isWide = false) : d.discard = d.plain .pop := by
  simp [Draft.discard, OperandStack.top?, hs, ht]

/-- An operation has an effect wherever it is asked for. -/
theorem Turns.performs {op : Operation} (h : op.Turns P locals s s') {d : Draft}
    (hd : d.At ⟨s, locals⟩) :
    (d.step op.step).fault = none ∧
      (d.step op.step = d ∧ (∃ number, op = .line number) ∨
        d.Performs op.instruction (d.step op.step)) := by
  have heffect : op.instruction.effect? d.thisClass d.code.size d.flow = some ⟨s', locals⟩ := by
    rw [effect?_eq, hd.flow, h.effect]
  have hstep (hs : op.step.instruction? = some op.instruction) :
      (d.step op.step).fault = none ∧ d.Performs op.instruction (d.step op.step) := by
    have hfault := fault_step_of_effect hd.reachable hd.fault hs heffect
    exact ⟨hfault, step_performs hd.reachable hs hfault⟩
  cases op with
  | line number =>
    refine ⟨?_, (line_performs hd.reachable number).imp (fun h => ⟨h, number, rfl⟩) id⟩
    simp only [step, Draft.step, openLine]
    split_ifs
    · exact hd.fault
    · exact hd.fault
  | discard =>
    obtain ⟨t, rest, hs⟩ := exists_cons_of_drop? h.effect
    have hstack : d.stack.entries = t :: rest := by
      have : d.stack.entries = s := congrArg Flow.stack hd.flow
      rw [this]
      exact hs
    have hplain : d.step (step .discard) = d.plain .pop :=
      step_of_narrow hstack (h.narrow rfl t (by rw [show s = t :: rest from hs]; rfl))
    rw [hplain]
    have hpop : d.flow.plain? .pop = some _ := heffect
    have hfault := (fault_plain_of_effect hd.reachable hpop).trans hd.fault
    exact ⟨hfault, .inr (plain_performs hd.reachable hfault)⟩
  | _ => exact (hstep rfl).imp id .inr

/-- The types behind an operation. -/
theorem Turns.at_step {op : Operation} (h : op.Turns P locals s s') {d : Draft}
    (hd : d.At ⟨s, locals⟩) : (d.step op.step).At ⟨s', locals⟩ := by
  obtain ⟨hfault, ⟨hsame, number, rfl⟩ | hperforms⟩ := h.performs hd
  · rw [hsame]
    cases h.effect
    exact hd
  · have hat := hd.performs hperforms hfault op.keepsLocals_instruction
      (endsFlow_instruction h.continues)
    have hflow := hperforms.effect
    rw [effect?_eq, hd.flow, h.effect, Option.some.injEq] at hflow
    rwa [← hflow] at hat

theorem eq_of_performs {d d' : Draft} {i j : Instruction} (h : d.Performs i d')
    (k : d.Performs j d') : i = j :=
  Array.push_inj_right.1 (h.code.symm.trans k.code)

theorem Turns.along {op : Operation} (h : op.Turns P locals s s') {d : Draft}
    (hd : d.At ⟨s, locals⟩) {i : Instruction} (hi : d.Performs i (d.step op.step)) :
    P d.flow i := by
  rw [hd.flow]
  obtain ⟨-, ⟨hsame, -⟩ | hperforms⟩ := h.performs hd
  · rw [hsame] at hi
    have hcode := congrArg Array.size hi.code
    simp at hcode
  · rw [eq_of_performs hi hperforms]
    exact h.holds

end Operation

namespace Draft

section

variable {env : Env} {d : Draft}

theorem fault_meet_eq (d : Draft) (label : Label) : (d.meet label).fault = d.fault := by
  unfold meet
  split_ifs
  · rfl
  · split <;> rfl

/-- A handler is in order if the answer of its marker can be asked for. -/
theorem fault_handler (span : Span) {h : Label × String} (hin : h.1.index < d.labels.size)
    (hf : d.fault = none) (ha : AnswersOne env h.2) :
    (d.run (handlerSteps env span h)).fault = none := by
  obtain ⟨type, htype⟩ := ha
  obtain ⟨marked, hmarked⟩ : ∃ x, x = d.markHandler h.1 h.2 := ⟨_, rfl⟩
  obtain ⟨lined, hlined⟩ : ∃ x, x = marked.openLine span.line := ⟨_, rfl⟩
  obtain ⟨called, hcalled⟩ :
      ∃ x, x = lined.step (.invoke .invokevirtual (answerMethod env h.2)) := ⟨_, rfl⟩
  have hrun : d.run (handlerSteps env span h) = called.plain .areturn := by
    simp only [handlerSteps, run_cons, run_nil, step, hcalled, hlined, hmarked]
  rw [markHandler_eq d h.2 hin] at hmarked
  rw [openLine_eq (by simp [hmarked]) (by simp [hmarked])] at hlined
  have hreach : lined.reachable = true := by
    rw [hlined]
    split_ifs <;> simp [hmarked, append]
  have hfine : lined.fault = none := by
    rw [hlined]
    split_ifs <;> simp [hmarked, append, hf]
  have hflow : lined.flow = ⟨[.object h.2], d.locals⟩ := by
    rw [hlined]
    split_ifs <;> simp [flow, hmarked, append]
  have heffect : (Instruction.invoke .invokevirtual (answerMethod env h.2)).effect?
      lined.thisClass lined.code.size lined.flow = some ⟨[.ofFieldType type], d.locals⟩ := by
    rw [hflow]
    simp only [Instruction.effect?, htype, Except.toOption, Option.bind_some]
    rfl
  have hcall : (Step.invoke .invokevirtual (answerMethod env h.2)).instruction? = some _ := rfl
  have hfault := fault_step_of_effect hreach hfine hcall heffect
  have hperforms := step_performs hreach hcall hfault
  rw [← hcalled] at hfault hperforms
  have hcalled' : called.flow = ⟨[.ofFieldType type], d.locals⟩ :=
    Option.some.inj (hperforms.effect.symm.trans heffect)
  have hreturn : called.flow.plain? .areturn = some ⟨[], d.locals⟩ := by
    rw [hcalled']
    rfl
  rw [hrun, fault_plain_of_effect (by simpa [Instruction.endsFlow] using hperforms.reachable)
    hreturn, hfault]

theorem fault_handlers {span : Span} {handlers : List (Label × String)}
    (hin : ∀ h ∈ handlers, h.1.index < d.labels.size) (hf : d.fault = none)
    (ha : ∀ h ∈ handlers, AnswersOne env h.2) :
    (d.run (handlers.flatMap (handlerSteps env span))).fault = none := by
  induction handlers generalizing d with
  | nil => exact hf
  | cons h handlers ih =>
    obtain ⟨hfirst, hrest⟩ := List.forall_mem_cons.1 hin
    obtain ⟨hanswers, hothers⟩ := List.forall_mem_cons.1 ha
    have hfault := fault_handler span hfirst hf hanswers
    rw [List.flatMap_cons, run_append]
    refine ih ?_ hfault hothers
    rw [(run_handler env hfirst hfault).size]
    exact hrest

/-- Closing a region is no fault if the answers of its markers can be asked for. -/
theorem fault_closeRegion_of_answers {start : Label} {span : Span} {markers : List String}
    (hf : d.fault = none) (ha : ∀ marker ∈ markers, AnswersOne env marker) :
    (d.closeRegion env start span markers).fault = none := by
  by_cases hm : markers = []
  · rwa [closeRegion, if_pos hm]
  · rw [closeRegion_of_ne_nil env d start span hm]
    refine (fault_meet_eq _ _).trans (fault_handlers ?_ hf ?_)
    · intro x hx
      rw [size_leaveRange, length_handlerLabels]
      exact (mem_handlerLabels hx).2
    · intro x hx
      exact ha _ (mem_of_mem_handlerLabels hx)

theorem At.openRegion {f : Flow} (h : d.At f) : d.openRegion.At f := by
  rw [openRegion_eq]
  exact ⟨h.reachable, h.fault, h.flow, h.entry⟩

end

end Draft

namespace Code

section

variable (env : Env) (P : Flow → Instruction → Prop) (locals : List VerificationType)

/-- Code that control runs through turns the types on the stack into others. -/
def Moves (c : Code) (s s' : List VerificationType) : Prop :=
  ∀ d : Draft, d.At ⟨s, locals⟩ → (c.run env d).At ⟨s', locals⟩ ∧ c.Each env P d

def Stops (c : Code) (s : List VerificationType) : Prop :=
  ∀ d : Draft, d.At ⟨s, locals⟩ → (c.run env d).Over ∧ c.Each env P d

end

section

variable {env : Env} {P : Flow → Instruction → Prop} {locals s s' : List VerificationType}

theorem Moves.operations {ops : List Operation} (h : Operation.TurnAll P locals ops s s') :
    (operations ops).Moves env P locals s s' := by
  intro d hd
  induction ops generalizing d s with
  | nil =>
    cases h
    exact ⟨hd, trivial⟩
  | cons op ops ih =>
    obtain ⟨middle, hop, hops⟩ := h
    obtain ⟨hat, halong⟩ := ih hops _ (hop.at_step hd)
    exact ⟨hat, fun _ i hi => hop.along hd hi, halong⟩

theorem Moves.nothing : (Code.operations []).Moves env P locals s s := by
  refine .operations ?_
  rfl

theorem Moves.append {first second : Code} {middle : List VerificationType}
    (h : first.Moves env P locals s middle) (k : second.Moves env P locals middle s') :
    (append first second).Moves env P locals s s' := by
  intro d hd
  obtain ⟨hfirst, heach⟩ := h d hd
  obtain ⟨hsecond, hrest⟩ := k _ hfirst
  exact ⟨hsecond, heach, hrest⟩

theorem Moves.marker {name : String} : (marker name).Moves env P locals s s :=
  fun _ hd => ⟨hd, trivial⟩

def Handled (env : Env) (P : Flow → Instruction → Prop) (locals : List VerificationType)
    (c : Code) : Prop :=
  ∀ marker ∈ c.markers, AnswersOne env marker ∧ HandlerHolds env P locals marker

theorem fault_region {c : Code} (h : c.Handled env P locals) {d : Draft} (hf : d.fault = none)
    (start : Label) (span : Span) : (d.closeRegion env start span c.markers).fault = none :=
  fault_closeRegion_of_answers hf fun marker hm => (h marker hm).1

theorem each_region {span : Span} {body : Code} (h : body.Handled env P locals) {d : Draft}
    (hd : d.At ⟨s, locals⟩) (heach : body.Each env P d.openRegion) :
    (region span body).Each env P d :=
  ⟨heach, fun marker hm => by rw [hd.entry]; exact (h marker hm).2⟩

theorem Moves.region {span : Span} {body : Code} (h : body.Moves env P locals s s')
    (hm : body.Handled env P locals) : (region span body).Moves env P locals s s' := by
  intro d hd
  obtain ⟨hat, heach⟩ := h _ hd.openRegion
  refine ⟨?_, each_region hm hd heach⟩
  by_cases hnone : body.markers = []
  · simpa only [run, closeRegion, hnone, ↓reduceIte] using hat
  · have hfault := fault_region hm hat.fault d.nextLabel span
    have hcloses := closeRegion_closes env d.nextLabel span hnone hfault
    exact ⟨hcloses.reachable.trans hat.reachable, hfault,
      (hcloses.flow hat.reachable).trans hat.flow, hcloses.entryLocals.trans hat.entry⟩

theorem Stops.region {span : Span} {body : Code} (h : body.Stops env P locals s)
    (hm : body.Handled env P locals) : (Code.region span body).Stops env P locals s := by
  intro d hd
  obtain ⟨hover, heach⟩ := h _ hd.openRegion
  refine ⟨?_, each_region hm hd heach⟩
  by_cases hnone : body.markers = []
  · simpa only [run, closeRegion, hnone, ↓reduceIte] using hover
  · have hfault := fault_region hm hover.fault d.nextLabel span
    have hcloses := closeRegion_closes env d.nextLabel span hnone hfault
    exact ⟨hcloses.reachable.trans hover.reachable, hfault⟩

theorem Moves.andStops {first second : Code} {middle : List VerificationType}
    (h : first.Moves env P locals s middle) (k : second.Stops env P locals middle) :
    (Code.append first second).Stops env P locals s := by
  intro d hd
  obtain ⟨hfirst, heach⟩ := h d hd
  obtain ⟨hsecond, hrest⟩ := k _ hfirst
  exact ⟨hsecond, heach, hrest⟩

theorem along_of_unreachable {d : Draft} (hr : d.reachable = false) (ops : List Operation) :
    d.Along P (ops.map Operation.step) := by
  induction ops with
  | nil => trivial
  | cons op ops ih =>
    refine ⟨fun hr' => absurd (hr.symm.trans hr') (by simp), ?_⟩
    rwa [step_of_unreachable hr]

/-- Operations out of reach do nothing. -/
theorem Stops.andOperations {first : Code} (h : first.Stops env P locals s) (ops : List Operation) :
    (Code.append first (operations ops)).Stops env P locals s := by
  intro d hd
  obtain ⟨hover, heach⟩ := h d hd
  refine ⟨?_, heach, along_of_unreachable hover.reachable ops⟩
  rwa [run, run, runOperations_of_unreachable hover.reachable]

theorem Stops.statement {body : Code} (h : body.Stops env P locals s) (isLast : Bool) :
    (Code.statement isLast body).Stops env P locals s := by
  intro d hd
  obtain ⟨hover, heach⟩ := h d hd
  refine ⟨?_, heach, along_of_unreachable hover.reachable _⟩
  rwa [run, settle, runOperations_of_unreachable hover.reachable]

theorem depth_of_at {d : Draft} (h : d.At ⟨s, locals⟩) : d.stack.depth = s.length := by
  rw [d.stack.depth_eq]
  exact congrArg (fun f : Flow => f.stack.length) h.flow

/-- A statement that leaves one value: it stays if the statement is the last one. -/
theorem Moves.statement {body : Code} {t : VerificationType} (ht : t.isWide = false)
    (hpop : P ⟨t :: s, locals⟩ (.plain .pop)) (h : body.Moves env P locals s (t :: s))
    (isLast : Bool) :
    (Code.statement isLast body).Moves env P locals s (if isLast then t :: s else s) := by
  intro d hd
  obtain ⟨hat, heach⟩ := h d hd
  have hsettling : settling env isLast d.stack.depth (body.run env d).stack.depth =
      if isLast then [] else [.discard] := by
    rw [depth_of_at hd, depth_of_at hat]
    cases isLast <;> simp [settling]
  have hturns : Operation.TurnAll P locals (if isLast then [] else [.discard]) (t :: s)
      (if isLast then t :: s else s) := by
    cases isLast with
    | true => rfl
    | false =>
      refine ⟨s, ⟨rfl, by simp, ?_, hpop⟩, rfl⟩
      rintro - t' ⟨⟩
      exact ht
  have hmoves : Moves env P locals (.operations _) _ _ := .operations hturns
  obtain ⟨hsettled, halong⟩ := hmoves _ hat
  refine ⟨?_, heach, ?_⟩
  · rw [run, settle, hsettling]
    exact hsettled
  · rw [hsettling]
    exact halong

theorem Stops.areturn {t : VerificationType} (hreturn : P ⟨t :: s, locals⟩ (.plain .areturn)) :
    (operations [.areturn]).Stops env P locals (t :: s) := by
  intro d hd
  have heffect : d.flow.plain? .areturn = some ⟨s, locals⟩ := by
    rw [hd.flow]
    rfl
  have hfault := (fault_plain_of_effect hd.reachable heffect).trans hd.fault
  have hperforms := plain_performs hd.reachable hfault
  refine ⟨⟨hperforms.reachable, hfault⟩, fun _ i hi => ?_, trivial⟩
  rw [Operation.eq_of_performs hi hperforms, hd.flow]
  exact hreturn

end

end Code

namespace Draft

def AllPlaced (d : Draft) : Prop :=
  ∀ (i : Nat) (r : LabelRecord), d.labels[i]? = some r → r.placed = true

theorem AllPlaced.openRegion {d : Draft} (h : d.AllPlaced) : d.openRegion.AllPlaced := by
  intro i r hr
  rw [openRegion_eq, Array.getElem?_push] at hr
  split_ifs at hr
  · cases hr
    rfl
  · exact h i r hr

theorem Closes.allPlaced {env : Env} {start : Label} {span : Span} {markers : List String}
    {d d' : Draft} (hc : Closes env start span markers d d') (h : d.AllPlaced) :
    d'.AllPlaced := by
  intro i r hr
  have hsize := (Array.getElem?_eq_some_iff.1 hr).1
  rw [hc.size] at hsize
  rcases Nat.lt_trichotomy i d.labels.size with hlt | rfl | hgt
  · rw [hc.others i hlt] at hr
    exact h i r hr
  · rw [hc.stop, Option.some.injEq] at hr
    rw [← hr]
  · rcases Nat.eq_or_lt_of_le hgt with rfl | hgt
    · rw [hc.after, Option.some.injEq] at hr
      rw [← hr]
    · obtain ⟨x, hx, rfl⟩ := exists_handlerLabel hgt hsize
      rw [hc.records x hx, Option.some.injEq] at hr
      rw [← hr]

/-- A draft in order whose labels are all placed can be finished. -/
theorem Over.finish {d : Draft} (h : d.Over) (hp : d.AllPlaced) (hw : d.WellMarked) :
    ∃ b, d.finish = .ok b := by
  have hmarked {label : Label} (hl : .mark label ∈ d.code.toList) : d.isPlaced label = true := by
    have hlt := hw.below label hl
    have hr := Array.getElem?_eq_getElem hlt
    simp only [isPlaced, hr, Option.map_some, Option.getD_some]
    exact hp _ _ hr
  have hplaced : d.requiredLabels.find? (fun l => !d.isPlaced l) = none := by
    refine List.find?_eq_none.2 fun label hl => ?_
    rw [Bool.not_eq_true, Bool.not_eq_false']
    rcases List.mem_append.1 hl with hl | hl
    · obtain ⟨⟨r, i⟩, hri, hsome⟩ := List.mem_filterMap.1 hl
      have hr : d.labels[i]? = some r := by
        rw [← Array.getElem?_toList]
        exact List.mem_zipIdx_iff_getElem?.1 hri
      simp only at hsome
      split_ifs at hsome
      cases hsome
      simp only [isPlaced, hr, Option.map_some, Option.getD_some]
      exact hp i r hr
    · obtain ⟨e, he, hl⟩ := List.mem_flatMap.1 hl
      rcases List.mem_cons.1 hl with rfl | hl
      · exact hmarked (hw.start e he)
      · rw [List.mem_singleton.1 hl]
        exact hmarked (hw.stop e he)
  unfold Draft.finish
  rw [h.fault]
  simp only [h.reachable, Bool.false_eq_true, ↓reduceIte, hplaced]
  exact ⟨_, rfl⟩

end Draft

namespace Code

theorem run_allPlaced (env : Env) {c : Code} {d : Draft} (hf : (c.run env d).fault = none)
    (h : d.AllPlaced) : (c.run env d).AllPlaced := by
  have hoperations {d : Draft} {ops : List Operation} (hf : (d.runOperations ops).fault = none)
      (h : d.AllPlaced) : (d.runOperations ops).AllPlaced :=
    runOperations_induction (R := fun d d' => d.AllPlaced → d'.AllPlaced) (fun _ => True)
      (fun _ h => h) (fun h k hd => k (h hd))
      (fun _ hp _ _ _ hd i r hr => hd i r (by rwa [hp.labels] at hr)) trivial
      (fun _ _ => trivial) hf h
  induction c generalizing d with
  | operations ops => exact hoperations hf h
  | append first second ihFirst ihSecond => exact ihSecond hf (ihFirst (fault_run env hf) h)
  | marker name => exact h
  | region span body ih =>
    have hbody := ih (fault_closeRegion env hf) h.openRegion
    by_cases hm : body.markers = []
    · simpa only [run, closeRegion, hm, ↓reduceIte] using hbody
    · exact (closeRegion_closes env d.nextLabel span hm hf).allPlaced hbody
  | statement isLast body ih => exact hoperations hf (ih (Draft.fault_run hf) h)

/-- A method whose code ends in order can be finished. -/
theorem Stops.finish {env : Env} {P : Flow → Instruction → Prop} {locals : List VerificationType}
    {c : Code} (h : c.Stops env P locals []) (lines : Bool) :
    ∃ b, (c.run env (Draft.method locals lines)).finish = .ok b ∧ b.Verified none P := by
  obtain ⟨hover, heach⟩ := h (Draft.method locals lines) ⟨rfl, rfl, rfl, rfl⟩
  have hplaced := run_allPlaced env hover.fault (d := Draft.method locals lines)
    (by intro i r hr; simp [Draft.method] at hr)
  have hwell := (run_builds env hover.fault).wellMarked (wellMarked_method locals lines)
  obtain ⟨b, hb⟩ := hover.finish hplaced hwell
  exact ⟨b, hb, verified_of_each env hb heach⟩

end Code

namespace Draft

/-- Steps that emit one instruction each, of which the last alone ends the flow: each instruction
has an effect on the types it finds and meets what is asked of it. -/
inductive Proceeds (P : Flow → Instruction → Prop) (this : Option String) :
    Nat → Flow → List Step → Prop where
  | last {place : Nat} {f f' : Flow} {s : Step} {i : Instruction} (emits : s.instruction? = some i)
      (ends : i.endsFlow = true) (effect : i.effect? this place f = some f') (holds : P f i) :
      Proceeds P this place f [s]
  | next {place : Nat} {f f' : Flow} {s : Step} {steps : List Step} {i : Instruction}
      (emits : s.instruction? = some i) (continues : i.endsFlow = false)
      (effect : i.effect? this place f = some f') (holds : P f i)
      (rest : Proceeds P this (place + 1) f' steps) : Proceeds P this place f (s :: steps)

variable {P : Flow → Instruction → Prop} {d : Draft} {steps : List Step}

theorem Proceeds.writes (hr : d.reachable = true) (hf : d.fault = none)
    (h : Proceeds P d.thisClass d.code.size d.flow steps) :
    (d.run steps).Over ∧ ∃ added, Writes P d (d.run steps) added := by
  generalize hthis : d.thisClass = this at h
  generalize hplace : d.code.size = place at h
  generalize hflow : d.flow = f at h
  induction h generalizing d with
  | last emits ends effect holds =>
    subst hthis hplace hflow
    have hfault := fault_step_of_effect hr hf emits effect
    have hperforms := step_performs hr emits hfault
    exact ⟨⟨by rw [run_cons, run_nil, hperforms.reachable, ends]; rfl, hfault⟩, _,
      hperforms.writes hr (isStraight_of_instruction? emits) holds⟩
  | next emits continues effect holds rest ih =>
    subst hthis hplace hflow
    have hfault := fault_step_of_effect hr hf emits effect
    have hperforms := step_performs hr emits hfault
    obtain ⟨hover, added, hadded⟩ := ih (by simpa [continues] using hperforms.reachable) hfault
      hperforms.thisClass (by simp [hperforms.code])
      (Option.some.inj (hperforms.effect.symm.trans effect))
    exact ⟨hover, _, (hperforms.writes hr (isStraight_of_instruction? emits) holds).trans hadded⟩

structure Fresh (d : Draft) : Prop where
  code : d.code = #[]
  labels : d.labels = #[]
  handlers : d.handlers = #[]
  reachable : d.reachable = true
  flow : d.flow = ⟨[], d.entryLocals⟩
  fault : d.fault = none

theorem Fresh.finish (hd : d.Fresh) {d' : Draft} {added : List Instruction}
    (hw : Writes P d d' added) (h : d'.Over) :
    ∃ b, d'.finish = .ok b ∧ b.Verified d.thisClass P := by
  have hlabels : d'.labels = #[] := hw.labels.trans hd.labels
  have hhandlers : d'.handlers = #[] := hw.handlers.trans hd.handlers
  obtain ⟨b, hb⟩ : ∃ b, d'.finish = .ok b := by
    unfold Draft.finish
    simp [h.fault, h.reachable, requiredLabels, targets, hlabels, hhandlers]
  have hverified := hw.verified ⟨hd.code, hd.labels, hd.handlers, hd.reachable, hd.flow⟩ hb
  exact ⟨b, hb, hverified.1.1⟩

/-- A method of straight code can be finished. -/
theorem Proceeds.finish (hd : d.Fresh) (h : Proceeds P d.thisClass 0 ⟨[], d.entryLocals⟩ steps) :
    ∃ b, (d.run steps).finish = .ok b ∧ b.Verified d.thisClass P := by
  rw [← hd.flow, show 0 = d.code.size by rw [hd.code]; rfl] at h
  obtain ⟨hover, added, hadded⟩ := h.writes hd.reachable hd.fault
  exact hd.finish hadded hover

/-- A line may be opened first. -/
theorem Proceeds.finish_line (hd : d.Fresh) {number : Nat}
    (hline : P ⟨[], d.entryLocals⟩ (.line number))
    (h : ∀ place, Proceeds P d.thisClass place ⟨[], d.entryLocals⟩ steps) :
    ∃ b, (d.run (.line number :: steps)).finish = .ok b ∧ b.Verified d.thisClass P := by
  rw [run_cons, step]
  rcases line_performs hd.reachable number with hsame | hperforms
  · rw [hsame]
    exact (h 0).finish hd
  · have hflow : (d.openLine number).flow = d.flow := (Option.some.inj hperforms.effect).symm
    have hfault : (d.openLine number).fault = none := by
      unfold openLine
      split_ifs <;> exact hd.fault
    have hopened : Proceeds P (d.openLine number).thisClass (d.openLine number).code.size
        (d.openLine number).flow steps := by
      rw [hflow, hd.flow, hperforms.thisClass]
      exact h _
    obtain ⟨hover, added, hadded⟩ := hopened.writes (by rw [hperforms.reachable]; rfl) hfault
    exact hd.finish ((hperforms.writes hd.reachable rfl (by rwa [hd.flow])).trans hadded) hover

end Draft
end SmalltalkJvm
