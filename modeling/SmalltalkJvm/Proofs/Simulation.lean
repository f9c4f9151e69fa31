import SmalltalkJvm.Proofs.Meaning

/-! # Structured code on the machine

What structured code does to a stack of values, and that the machine does the same on the
instructions which the code emits. A region catches what its markers say, so its labels, branches
and handlers are gone from the picture.
-/

namespace SmalltalkJvm

def Flow.Narrow (f : Flow) : Prop := ∀ t ∈ f.stack ++ f.locals, t.isWide = false

def Operation.Narrow : Operation → Prop
  | .getStatic field =>
    ∀ t, FieldType.parse field.descriptor = .ok t → (VerificationType.ofFieldType t).isWide = false
  | .invokeVirtual method | .invokeStatic method =>
    ∀ d, MethodDescriptor.parse method.descriptor = .ok d →
      ∀ t, d.result = some t → (VerificationType.ofFieldType t).isWide = false
  | .invokeDynamic site =>
    ∀ d, MethodDescriptor.parse site.descriptor = .ok d →
      ∀ t, d.result = some t → (VerificationType.ofFieldType t).isWide = false
  | _ => True

def Code.All (P : Operation → Prop) : Code → Prop
  | operations ops => ∀ op ∈ ops, P op
  | append first second => first.All P ∧ second.All P
  | marker _ => True
  | region _ body | statement _ body => body.All P

theorem Code.All.mono {P Q : Operation → Prop} (h : ∀ op, P op → Q op) {c : Code} (hc : c.All P) :
    c.All Q := by
  induction c with
  | operations ops => exact fun op hop => h op (hc op hop)
  | append first second ihFirst ihSecond => exact ⟨ihFirst hc.1, ihSecond hc.2⟩
  | marker name => trivial
  | region span body ih | statement isLast body ih => exact ih hc

namespace Flow

theorem Narrow.push {f : Flow} (hf : f.Narrow) {t : VerificationType} (ht : t.isWide = false) :
    (f.push t).Narrow := by
  intro u hu
  simp only [Flow.push, List.cons_append, List.mem_cons] at hu
  rcases hu with rfl | hu
  · exact ht
  · exact hf u hu

theorem Narrow.drop? {f f' : Flow} (hf : f.Narrow) {n : Nat} (h : f.drop? n = some f') :
    f'.Narrow := by
  unfold Flow.drop? at h
  split_ifs at h
  cases h
  intro u hu
  simp only [List.mem_append] at hu
  exact hf u (List.mem_append.2 (hu.imp List.mem_of_mem_drop id))

theorem Narrow.pushResult {f : Flow} (hf : f.Narrow) {result : Option FieldType}
    (hr : ∀ t, result = some t → (VerificationType.ofFieldType t).isWide = false) :
    (f.pushResult result).Narrow := by
  cases result with
  | none => exact hf
  | some t => exact hf.push (hr t rfl)

end Flow

theorem Operation.narrow_effect {op : Operation} (hop : op.Narrow) {this : Option String}
    {place : Nat} {f f' : Flow} (hf : f.Narrow)
    (h : op.instruction.effect? this place f = some f') : f'.Narrow := by
  have hinvoke {opcode : Opcode} {method : MemberRef} (hs : opcode ≠ .invokespecial)
      (hm : ∀ d, MethodDescriptor.parse method.descriptor = .ok d →
        ∀ t, d.result = some t → (VerificationType.ofFieldType t).isWide = false)
      (h : (Instruction.invoke opcode method).effect? this place f = some f') : f'.Narrow := by
    obtain ⟨d, f₁, f₂, hd, hdrop, hreceive, rfl⟩ := Instruction.effect?_invoke place h
    rw [Flow.receive?_eq_drop? _ _ _ hs] at hreceive
    exact ((hf.drop? hdrop).drop? hreceive).pushResult (hm d hd)
  cases op with
  | line number =>
    cases h
    exact hf
  | dup =>
    simp only [instruction, Instruction.effect?, Flow.plain?] at h
    split at h
    · rename_i t rest hst
      cases h
      exact hf.push (hf t (by simp [hst]))
    · cases h
  | areturn | discard => exact hf.drop? h
  | int value =>
    rw [instruction, Draft.effect?_intInstruction] at h
    cases h
    exact hf.push rfl
  | string text =>
    cases h
    exact hf.push rfl
  | load slot =>
    obtain ⟨t, ht, rfl⟩ := Option.map_eq_some_iff.1 h
    exact hf.push (hf t (List.mem_append_right _ (List.mem_of_getElem? ht)))
  | getStatic field =>
    obtain ⟨t, ht, rfl⟩ := Option.map_eq_some_iff.1 h
    exact hf.push (hop t (eq_ok_of_toOption ht))
  | invokeVirtual method => exact hinvoke (by decide) hop h
  | invokeStatic method => exact hinvoke (by decide) hop h
  | invokeDynamic site =>
    obtain ⟨d, hd, h⟩ := Option.bind_eq_some_iff.1 h
    obtain ⟨f₁, hdrop, rfl⟩ := Option.map_eq_some_iff.1 h
    exact (hf.drop? hdrop).pushResult (hop d (eq_ok_of_toOption hd))

namespace Draft

def Narrow (d : Draft) : Prop := d.reachable = true → d.flow.Narrow

theorem Narrow.step {d : Draft} (hd : d.Narrow) {op : Operation} (hop : op.Narrow)
    (hf : (d.step op.step).fault = none) : (d.step op.step).Narrow := by
  cases hr : d.reachable with
  | false =>
    rw [step_of_unreachable hr]
    exact hd
  | true =>
    intro _
    rcases step_operation hr op hf with ⟨h, -⟩ | h | ⟨-, -, t, ht, hw⟩
    · rw [h]
      exact hd hr
    · exact op.narrow_effect hop (hd hr) h.effect
    · rw [hd hr t (List.mem_append_left _ ht)] at hw
      cases hw

theorem Narrow.runOperations {d : Draft} (hd : d.Narrow) {operations : List Operation}
    (ho : ∀ op ∈ operations, op.Narrow) (hf : (d.runOperations operations).fault = none) :
    (d.runOperations operations).Narrow := by
  induction operations generalizing d with
  | nil => exact hd
  | cons op operations ih =>
    have hop : (d.step op.step).fault = none := fault_run hf
    exact ih (hd.step (ho op (by simp)) hop) (fun x hx => ho x (by simp [hx])) hf

theorem Narrow.openRegion {d : Draft} (hd : d.Narrow) : d.openRegion.Narrow := by
  rw [openRegion_eq]
  exact hd

theorem Narrow.closeRegion {env : Env} {d : Draft} (hd : d.Narrow) {start : Label} {span : Span}
    {markers : List String} (hf : (d.closeRegion env start span markers).fault = none) :
    (d.closeRegion env start span markers).Narrow := by
  by_cases hm : markers = []
  · simpa [Draft.closeRegion, hm] using hd
  · have hclose := closeRegion_closes env start span hm hf
    intro hr
    rw [hclose.reachable] at hr
    rw [hclose.flow hr]
    exact hd hr

end Draft

section

variable {V W : Type} (env : Env) (rt : Runtime V W) (locals : List V)

/-- What an operation does to a stack of values. An answer leaves the method. With too little on
the stack, nothing happens. -/
def Operation.eval (op : Operation) (stack : List V) : Eval V W (List V) :=
  match op, stack with
  | .areturn, v :: _ => throw (.answered v)
  | op, stack => (op.instruction.exec rt locals stack).elim (pure stack) ofCall

def evalOperations (operations : List Operation) (stack : List V) : Eval V W (List V) :=
  operations.foldlM (fun stack op => op.eval rt locals stack) stack

def Code.eval : Code → List V → Eval V W (List V)
  | operations ops, stack => evalOperations rt locals ops stack
  | append first second, stack => do second.eval (← first.eval stack)
  | marker _, stack => pure stack
  | region _ body, stack => catchAnswers env rt body.markers (body.eval stack)
  | statement isLast body, stack => do
    let after ← body.eval stack
    evalOperations rt locals (Draft.settling env isLast stack.length after.length) after

theorem map_ok {ε σ α β : Type} {f : α → β} {x : EStateM ε σ α} {s s' : σ} {b : β}
    (h : (f <$> x) s = .ok b s') : ∃ a, x s = .ok a s' ∧ f a = b := by
  change EStateM.map f x s = .ok b s' at h
  unfold EStateM.map at h
  split at h <;> cases h
  exact ⟨_, ‹_›, rfl⟩

/-- A call with enough operands goes ahead, and its value takes their place. -/
theorem callWith_length {operands : Nat} {returns : Bool} {call : List V → EStateM V W V}
    {stack : List V} {n : Nat} (h : n + operands = stack.length) :
    ∃ action, callWith operands returns call stack = some action ∧
      ∀ w after w', action w = .ok after w' → after.length = n + if returns then 1 else 0 := by
  refine ⟨_, by rw [callWith, if_pos (by omega)], fun w after w' hok => ?_⟩
  obtain ⟨v, -, rfl⟩ := map_ok hok
  cases returns <;> simp <;> omega

theorem toInt32_toInt16 {value : Int32} (h₁ : -32768 ≤ value.toInt) (h₂ : value.toInt ≤ 32767) :
    value.toInt16.toInt32 = value := by
  apply Int32.toInt_inj.1
  rw [Int16.toInt_toInt32, Int32.toInt_toInt16]
  apply Int.bmod_eq_of_le <;> omega

theorem exec_intInstruction (value : Int32) (stack : List V) :
    (Draft.intInstruction value).exec rt locals stack = some (pure (rt.number value :: stack)) := by
  unfold Draft.intInstruction
  split
  · rename_i op h
    have hop : op.constant? = some value := by
      unfold Opcode.iconst? at h
      split_ifs at h with h₁ h₂ h₃ h₄ h₅ h₆ h₇ <;> cases h <;>
        simp only [Opcode.constant?, Option.some.injEq] <;> apply Int32.toInt_inj.1 <;> simp [*]
    cases op <;> simp_all [Instruction.exec, Opcode.constant?]
  · split_ifs with h₁ h₂
    · have hsmall : value.toInt16.toInt32 = value := toInt32_toInt16 (by omega) (by omega)
      simp [Instruction.exec, hsmall]
    · simp [Instruction.exec, toInt32_toInt16 h₂.1 h₂.2]
    · rfl

/-- Where the effect on types goes through, so does the operation on values, and it leaves as many
as there are types. -/
theorem Operation.exec_effect {op : Operation} (hop : op ≠ .areturn) {this : Option String}
    {place : Nat} {f f' : Flow} (h : op.instruction.effect? this place f = some f')
    {stack : List V} (hs : stack.length = f.stack.length) (hl : locals.length = f.locals.length) :
    ∃ action, op.instruction.exec rt locals stack = some action ∧
      ∀ w after w', action w = .ok after w' → after.length = f'.stack.length := by
  have hpush {v : V} {t : VerificationType} {w after w'}
      (hok : (pure (v :: stack) : EStateM V W (List V)) w = .ok after w') :
      after.length = (f.push t).stack.length := by
    cases hok
    simp [Flow.push, hs]
  have hinvoke {opcode : Opcode} {method : MemberRef}
      (h : (Instruction.invoke opcode method).effect? this place f = some f') :
      ∃ action, (Instruction.invoke opcode method).exec rt locals stack = some action ∧
        ∀ w after w', action w = .ok after w' → after.length = f'.stack.length := by
    obtain ⟨d, f₁, f₂, hd, hdrop, hreceive, rfl⟩ := Instruction.effect?_invoke place h
    have hdropped := Flow.length_drop? hdrop
    have hreceived := Flow.length_receive? hreceive
    simp only [Instruction.exec, hd, Except.toOption, Option.bind_some, Flow.length_pushResult]
    exact callWith_length (by omega)
  cases op with
  | line number =>
    cases h
    refine ⟨_, rfl, fun w after w' hok => ?_⟩
    cases hok
    exact hs
  | dup =>
    simp only [instruction, Instruction.effect?, Flow.plain?] at h
    split at h
    · rename_i t rest hst
      cases h
      cases stack with
      | nil => simp [hst] at hs
      | cons v stack => exact ⟨_, rfl, fun w after w' hok => hpush hok⟩
    · cases h
  | areturn => exact absurd rfl hop
  | discard =>
    have hdropped := Flow.length_drop? h
    cases stack with
    | nil =>
      rw [← hs] at hdropped
      simp at hdropped
    | cons v stack =>
      refine ⟨_, rfl, fun w after w' hok => ?_⟩
      cases hok
      rw [← hs, List.length_cons] at hdropped
      omega
  | int value =>
    rw [instruction, Draft.effect?_intInstruction] at h
    cases h
    exact ⟨_, exec_intInstruction rt locals value stack, fun w after w' hok => hpush hok⟩
  | string text =>
    cases h
    exact ⟨_, rfl, fun w after w' hok => hpush hok⟩
  | load slot =>
    obtain ⟨t, ht, rfl⟩ := Option.map_eq_some_iff.1 h
    have hslot : slot.toNat < locals.length := by
      rw [hl]
      exact (List.getElem?_eq_some_iff.1 ht).1
    refine ⟨pure (locals[slot.toNat] :: stack), ?_, fun w after w' hok => hpush hok⟩
    simp [instruction, Instruction.exec, hslot]
  | getStatic field =>
    obtain ⟨t, ht, rfl⟩ := Option.map_eq_some_iff.1 h
    refine ⟨_, rfl, fun w after w' hok => ?_⟩
    obtain ⟨v, -, rfl⟩ := map_ok hok
    simp [Flow.push, hs]
  | invokeVirtual method => exact hinvoke h
  | invokeStatic method => exact hinvoke h
  | invokeDynamic site =>
    obtain ⟨d, hd, h⟩ := Option.bind_eq_some_iff.1 h
    obtain ⟨f₁, hdrop, rfl⟩ := Option.map_eq_some_iff.1 h
    have hdropped := Flow.length_drop? hdrop
    simp only [instruction, Instruction.exec, hd, Option.bind_some, Flow.length_pushResult]
    exact callWith_length (by omega)

variable (b : MethodBody)

structure Draft.Within (d : Draft) (b : MethodBody) : Prop where
  code : d.code.toList <+: b.instructions
  handlers : d.handlers.toList <+: b.handlers

theorem Draft.Within.of_extends {d d' : Draft} {b : MethodBody} (h : d'.Within b)
    (hd : d.Extends d') : d.Within b :=
  ⟨hd.code.trans h.code, hd.handlers.trans h.handlers⟩

variable {b}

theorem Draft.Within.place_lt {d : Draft} (h : d.Within b) {label : Label}
    (hm : .mark label ∈ d.code.toList) : b.place label < d.code.size := by
  obtain ⟨rest, hrest⟩ := h.code
  rw [MethodBody.place, ← hrest, List.idxOf_append_of_mem hm, ← Array.length_toList]
  exact List.idxOf_lt_length_iff.2 hm

theorem Draft.Within.le_place {d : Draft} (h : d.Within b) {label : Label}
    (hm : .mark label ∉ d.code.toList) : d.code.size ≤ b.place label := by
  obtain ⟨rest, hrest⟩ := h.code
  rw [MethodBody.place, ← hrest, List.idxOf_append_of_notMem hm, ← Array.length_toList]
  omega

theorem Draft.Within.getElem? {d : Draft} (h : d.Within b) {prior rest : List Instruction}
    {i : Instruction} (hd : d.code.toList = prior ++ i :: rest) :
    b.instructions[prior.length]? = some i := by
  obtain ⟨more, hmore⟩ := h.code
  rw [← hmore, hd, List.append_assoc, List.getElem?_append_right (Nat.le_refl _)]
  simp

theorem Draft.Within.place_eq {d : Draft} (h : d.Within b) {prior rest : List Instruction}
    {label : Label} (hd : d.code.toList = prior ++ .mark label :: rest)
    (hn : .mark label ∉ prior) : b.place label = prior.length := by
  obtain ⟨more, hmore⟩ := h.code
  rw [MethodBody.place, ← hmore, hd, List.append_assoc, List.idxOf_append_of_notMem hn,
    List.cons_append, List.idxOf_cons_self, Nat.add_zero]

theorem not_covers_of_le {d : Draft} (hw : d.WellMarked) (h : d.Within b) {e : ExceptionEntry}
    (he : e ∈ d.handlers.toList) {place : Nat} (hp : d.code.size ≤ place) :
    b.covers e place = false := by
  have := h.place_lt (hw.stop e he)
  simp only [MethodBody.covers, Bool.and_eq_false_iff, decide_eq_false_iff_not]
  omega

theorem not_covers_of_lt {d : Draft} (hw : d.WellMarked) (h : d.Within b) {e : ExceptionEntry}
    (he : d.labels.size ≤ e.start.index) {place : Nat} (hp : place < d.code.size) :
    b.covers e place = false := by
  have hstart : d.code.size ≤ b.place e.start := h.le_place fun hm => by
    have := hw.below _ hm
    omega
  simp only [MethodBody.covers, Bool.and_eq_false_iff, decide_eq_false_iff_not]
  omega

theorem step_exec {place : Nat} {i : Instruction} (hi : b.instructions[place]? = some i)
    {stack : List V} {action : EStateM V W (List V)} (ha : i.exec rt locals stack = some action)
    (world : W) :
    b.step rt locals (.running place stack world) = some
      (match action world with
        | .ok after world => .running (place + 1) after world
        | .error exception world => .throwing place exception world) := by
  rw [MethodBody.step, hi]
  split
  · contradiction
  · rename_i h
    cases h
    cases stack <;> cases ha
  · rename_i h
    cases h
    cases ha
  · rename_i h
    cases h
    rw [ha]
    rfl

theorem reaches_ok {place : Nat} {i : Instruction} (hi : b.instructions[place]? = some i)
    {stack after : List V} {action : EStateM V W (List V)} {world world' : W}
    (ha : i.exec rt locals stack = some action) (hok : action world = .ok after world') :
    b.Reaches rt locals (.running place stack world) (.running (place + 1) after world') :=
  .single (by rw [step_exec rt locals hi ha, hok])

theorem reaches_error {place : Nat} {i : Instruction} (hi : b.instructions[place]? = some i)
    {stack : List V} {action : EStateM V W (List V)} {exception : V} {world world' : W}
    (ha : i.exec rt locals stack = some action) (hx : action world = .error exception world') :
    b.Reaches rt locals (.running place stack world) (.throwing place exception world') :=
  .single (by rw [step_exec rt locals hi ha, hx])

theorem reaches_areturn {place : Nat} (hi : b.instructions[place]? = some (.plain .areturn))
    (v : V) (stack : List V) (world : W) :
    b.Reaches rt locals (.running place (v :: stack) world) (.returned v world) :=
  .single (by rw [MethodBody.step, hi]; rfl)

theorem reaches_goto {place : Nat} {label : Label}
    (hi : b.instructions[place]? = some (.jump .goto label)) (stack : List V) (world : W) :
    b.Reaches rt locals (.running place stack world) (.running (b.place label) stack world) :=
  .single (by rw [MethodBody.step, hi])

/-- What the result of an evaluation means for the machine: it goes from the end of one draft to
the end of the other, returns, or throws where no entry so far catches. -/
def Follows (b : MethodBody) (d d' : Draft) (stack : List V) (world : W) :
    EStateM.Result (Exit V) W (List V) → Prop
  | .ok after world' =>
    d'.reachable = true ∧ after.length = d'.stack.entries.length ∧
      b.Reaches rt locals (.running d.code.size stack world) (.running d'.code.size after world')
  | .error (.answered value) world' =>
    b.Reaches rt locals (.running d.code.size stack world) (.returned value world')
  | .error (.thrown exception) world' =>
    ∃ place, d.code.size ≤ place ∧ place < d'.code.size ∧
      b.Reaches rt locals (.running d.code.size stack world) (.throwing place exception world') ∧
      ∀ e ∈ d'.handlers.toList,
        (b.covers e place && e.catches.all (rt.isInstance · exception)) = false

/-- From one draft to another, the machine does what an evaluation says. -/
def Simulates (b : MethodBody) (d d' : Draft) (eval : List V → Eval V W (List V)) : Prop :=
  d.reachable = true → ∀ stack world, stack.length = d.stack.entries.length →
    Follows rt locals b d d' stack world (eval stack world)

theorem Simulates.pure (d : Draft) : Simulates rt locals b d d pure :=
  fun hr _ _ hs => ⟨hr, hs, .refl⟩

/-- What is followed from a place is followed from where the machine gets there. -/
theorem Follows.after {d d₁ d₂ : Draft} {stack after : List V} {world world' : W}
    {result : EStateM.Result (Exit V) W (List V)}
    (h : Follows rt locals b d₁ d₂ after world' result) (hd : d.Extends d₁)
    (hreach : b.Reaches rt locals (.running d.code.size stack world)
      (.running d₁.code.size after world')) :
    Follows rt locals b d d₂ stack world result := by
  match result, h with
  | .ok _ _, ⟨hr, hs, h⟩ => exact ⟨hr, hs, hreach.trans h⟩
  | .error (.answered _) _, h => exact hreach.trans h
  | .error (.thrown _) _, ⟨place, hge, hlt, h, hnone⟩ =>
    have hsize := hd.code.length_le
    simp only [Array.length_toList] at hsize
    exact ⟨place, by omega, hlt, hreach.trans h, hnone⟩

/-- An exit stays one when more code follows: what is protected there starts there. -/
theorem Follows.exit {d d₁ d₂ : Draft} {stack : List V} {world world' : W} {exit : Exit V}
    (h : Follows rt locals b d d₁ stack world (.error exit world')) (hd : d₁.Builds d₂)
    (hw : d₁.WellMarked) (hb : d₂.Within b) :
    Follows rt locals b d d₂ stack world (.error exit world') := by
  match exit, h with
  | .answered _, h => exact h
  | .thrown exception, ⟨place, hge, hlt, h, hnone⟩ =>
    have hsize := hd.code.length_le
    simp only [Array.length_toList] at hsize
    refine ⟨place, hge, by omega, h, fun e he => ?_⟩
    rcases hd.entries e he with he | he
    · exact hnone e he
    · rw [not_covers_of_lt hw (hb.of_extends hd.toExtends) he hlt, Bool.false_and]

theorem Simulates.bind {d d₁ d₂ : Draft} {f g : List V → Eval V W (List V)}
    (h : Simulates rt locals b d d₁ f) (k : Simulates rt locals b d₁ d₂ g)
    (hd : d.Extends d₁) (hd₁ : d₁.Builds d₂) (hw : d₁.WellMarked) (hb : d₂.Within b) :
    Simulates rt locals b d d₂ fun stack => f stack >>= g := by
  intro hr stack world hs
  have hfirst := h hr stack world hs
  change Follows rt locals b d d₂ stack world (EStateM.bind (f stack) g world)
  unfold EStateM.bind
  split
  · rename_i after world' hx
    rw [hx] at hfirst
    obtain ⟨hr₁, hs₁, hreach⟩ := hfirst
    exact (k hr₁ after world' hs₁).after rt locals hd hreach
  · rename_i exit world' hx
    rw [hx] at hfirst
    exact hfirst.exit rt locals hd₁ hw hb

structure Draft.Ready (d : Draft) : Prop where
  wellMarked : d.WellMarked
  narrow : d.Narrow
  locals : locals.length = d.locals.length

theorem Draft.Ready.of_builds {d d' : Draft} (hd : d.Ready locals) (h : d.Builds d')
    (hn : d'.Narrow) : d'.Ready locals :=
  ⟨h.wellMarked hd.wellMarked, hn, by rw [h.locals]; exact hd.locals⟩

theorem Operation.endsFlow_instruction {op : Operation} (hop : op ≠ .areturn) :
    op.instruction.endsFlow = false := by
  cases op with
  | areturn => exact absurd rfl hop
  | int value => exact Draft.endsFlow_intInstruction value
  | _ => rfl

theorem Operation.eval_of_exec {op : Operation} (hop : op ≠ .areturn) {stack : List V}
    {action : EStateM V W (List V)} (ha : op.instruction.exec rt locals stack = some action) :
    op.eval rt locals stack = ofCall action := by
  unfold Operation.eval
  split
  · exact absurd rfl hop
  · rw [ha, Option.elim_some]

theorem Operation.simulates {op : Operation} {d : Draft} (hd : d.Ready locals)
    (hf : (d.step op.step).fault = none) (hb : (d.step op.step).Within b) :
    Simulates rt locals b d (d.step op.step) (op.eval rt locals) := by
  intro hr stack world hs
  rcases Draft.step_operation hr op hf with ⟨h, number, rfl⟩ | h | ⟨-, -, t, ht, hw⟩
  · rw [h]
    exact Simulates.pure rt locals d hr stack world hs
  · have hcode : (d.step op.step).code.toList = d.code.toList ++ op.instruction :: [] := by
      simp [h.code]
    have hi := hb.getElem? hcode
    rw [Array.length_toList] at hi
    have hsize : (d.step op.step).code.size = d.code.size + 1 := by simp [h.code]
    by_cases hop : op = .areturn
    · subst hop
      have hdropped := Flow.length_drop? h.effect
      cases stack with
      | nil =>
        rw [show d.flow.stack = d.stack.entries from rfl, ← hs] at hdropped
        simp at hdropped
      | cons v stack => exact reaches_areturn rt locals hi v stack world
    · obtain ⟨action, ha, hlength⟩ := Operation.exec_effect rt locals hop h.effect hs hd.locals
      rw [Operation.eval_of_exec rt locals hop ha, ofCall]
      match hx : action world with
      | .ok after world' =>
        refine ⟨?_, hlength world after world' hx, ?_⟩
        · rw [h.reachable, op.endsFlow_instruction hop]
          rfl
        · rw [hsize]
          exact reaches_ok rt locals hi ha hx
      | .error exception world' =>
        refine ⟨d.code.size, Nat.le_refl _, by omega, reaches_error rt locals hi ha hx, ?_⟩
        intro e he
        rw [h.handlers] at he
        have hwithin := hb.of_extends (h.extends op.keepsLocals_instruction)
        rw [not_covers_of_le hd.wellMarked hwithin he (Nat.le_refl _), Bool.false_and]
  · rw [hd.narrow hr t (List.mem_append_left _ ht)] at hw
    cases hw

theorem evalOperations_simulates {operations : List Operation} {d : Draft}
    (hd : d.Ready locals) (hf : (d.runOperations operations).fault = none)
    (ho : ∀ op ∈ operations, op.Narrow) (hb : (d.runOperations operations).Within b) :
    Simulates rt locals b d (d.runOperations operations) (evalOperations rt locals operations) := by
  induction operations generalizing d with
  | nil => exact Simulates.pure rt locals d
  | cons op operations ih =>
    have hop : (d.step op.step).fault = none := Draft.fault_run hf
    have hfirst : d.Builds (d.runOperations [op]) := Draft.runOperations_builds hop
    have hrest : (d.step op.step).Builds ((d.step op.step).runOperations operations) :=
      Draft.runOperations_builds hf
    have hd₁ := hd.of_builds locals hfirst (hd.narrow.step (ho op (by simp)) hop)
    have hsecond := ih hd₁ hf (fun x hx => ho x (by simp [hx])) hb
    refine Simulates.bind rt locals ?_ hsecond hfirst.toExtends hrest hd₁.wellMarked hb
    exact Operation.simulates rt locals hd hop (hb.of_extends hrest.toExtends)

end

end SmalltalkJvm
