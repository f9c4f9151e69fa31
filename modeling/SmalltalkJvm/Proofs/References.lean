import SmalltalkJvm.Proofs.Checks
import SmalltalkJvm.Proofs.Typing

/-! # References on the operand stack

Between two constructs the stack of a method holds references only. Integers are pushed where the
context is asked for a slot, and the call that they are pushed for takes them at once. A directive
could call a method that gives something else, but then it is refused.

So code that goes through without a fault takes stacks of references to stacks of references, never
drops a value of two slots and returns references. The proof follows the compiler, since the code of
a directive does not show what was checked of it.
-/

namespace SmalltalkJvm

open Compile

theorem VerificationType.isReference_ofFieldType (t : FieldType) :
    (ofFieldType t).isReference = t.isReference := by
  cases t <;> rfl

theorem VerificationType.isWide_of_isReference {t : VerificationType} (h : t.isReference = true) :
    t.isWide = false := by
  cases t <;> first | rfl | cases h

namespace Flow

/-- There are references only below the top `n` entries of the stack and in the local variables. -/
structure ReferencesBelow (n : Nat) (f : Flow) : Prop where
  stack : ∀ t ∈ f.stack.drop n, t.isReference = true
  locals : ∀ t ∈ f.locals, t.isReference = true

variable {n : Nat} {f f' : Flow}

theorem ReferencesBelow.push (h : f.ReferencesBelow n) (t : VerificationType) :
    (f.push t).ReferencesBelow (n + 1) :=
  ⟨h.stack, h.locals⟩

theorem ReferencesBelow.pushReference (h : f.ReferencesBelow 0) {t : VerificationType}
    (ht : t.isReference = true) : (f.push t).ReferencesBelow 0 :=
  ⟨List.forall_mem_cons.2 ⟨ht, h.stack⟩, h.locals⟩

theorem ReferencesBelow.pushResult (h : f.ReferencesBelow 0) {result : Option FieldType}
    (hr : ∀ t, result = some t → t.isReference = true) :
    (f.pushResult result).ReferencesBelow 0 := by
  cases result with
  | none => exact h
  | some t => exact h.pushReference ((VerificationType.isReference_ofFieldType t).trans (hr t rfl))

/-- Taking all the others leaves references. -/
theorem ReferencesBelow.drop (h : f.ReferencesBelow n) {k : Nat} (hk : n ≤ k)
    (hd : f.drop? k = some f') : f'.ReferencesBelow 0 := by
  simp only [Flow.drop?] at hd
  split_ifs at hd
  cases hd
  refine ⟨fun t ht => h.stack t ?_, h.locals⟩
  rw [List.drop_zero, ← Nat.add_sub_cancel' hk, ← List.drop_drop] at ht
  exact List.mem_of_mem_drop ht

end Flow

/-- A method descriptor that, if it can be read, takes at least `n` parameters and gives nothing but
references. -/
def GivesReference (n : Nat) (descriptor : String) : Prop :=
  ∀ d, MethodDescriptor.parse descriptor = .ok d →
    n ≤ d.parameters.length ∧ ∀ t, d.result = some t → t.isReference = true

theorem Signature.Writes.givesReference {s : Signature} {descriptor : String}
    (h : s.Writes descriptor) : GivesReference s.parameters.length descriptor := by
  intro d hd
  obtain ⟨hlength, -, hresult⟩ := Signature.parse h.1 h.2 hd
  exact ⟨hlength.ge, hresult⟩

namespace Descriptor

theorem scalar_reference {text : List Char} {t : FieldType} (h : scalar text = .ok (t, []))
    (hlast : text.getLast? = some ';') : t.isReference = true := by
  unfold scalar at h
  split at h
  case h_10 =>
    split at h
    · cases h
    · split at h
      · cases h
      · cases h
        rfl
  all_goals cases h <;> simp at hlast

theorem single_reference {text : List Char} {leftover : DescriptorFault} {t : FieldType}
    (h : single text leftover = .ok t) (hlast : text.getLast? = some ';') :
    t.isReference = true := by
  unfold single at h
  split at h
  · cases h
  · rename_i hread
    cases h
    unfold fieldType at hread
    split at hread
    · exact scalar_reference hread hlast
    · split at hread
      · cases hread
      · cases hread
        rfl
  · cases h

end Descriptor

/-- Whatever the names in it are, a descriptor that ends like that of a class gives references. -/
theorem givesReference_of_getLast? {descriptor : String}
    (h : descriptor.toList.getLast? = some ';') : GivesReference 0 descriptor := by
  refine fun d hd => ⟨Nat.zero_le _, fun t ht => ?_⟩
  have hmethod := Descriptor.parse_ok hd rfl
  have hopening : ∃ rest, descriptor.toList = '(' :: rest := by
    unfold Descriptor.method at hmethod
    split at hmethod
    · exact ⟨_, ‹_›⟩
    · cases hmethod
  obtain ⟨rest, htext⟩ := hopening
  rw [htext] at hmethod h
  obtain ⟨result, hdrop, -, ⟨-, hnone⟩ | ⟨-, t', hsingle, hsome⟩⟩ := Descriptor.method_ok hmethod
  · cases hnone.symm.trans ht
  · cases hsome.symm.trans ht
    -- The result is what stands behind the closing bracket, so it ends as the descriptor does.
    have hrest := List.takeWhile_append_dropWhile (p := (· != ')')) (l := rest)
    rw [← hrest, hdrop] at h
    refine Descriptor.single_reference hsingle ?_
    cases result with
    | nil => simp [List.getLast?_cons] at h
    | cons c result => simpa [List.getLast?_cons, List.getLast?_append] using h

theorem givesReference_object (l : SupportLibrary) (start : String) :
    GivesReference 0 (start ++ l.objectType) :=
  givesReference_of_getLast? (by
    simp [toList_objectType, Parameter.text, List.getLast?_append, List.getLast?_cons])

/-- What is asked of instructions: they drop no value of two slots and return references. -/
def Instruction.MovesReferences (f : Flow) (i : Instruction) : Prop :=
  i ≠ .plain .pop2 ∧
    (i = .plain .areturn → ∃ t rest, f.stack = t :: rest ∧ t.isReference = true)

namespace Draft

structure Referential (n : Nat) (d : Draft) : Prop where
  reachable : d.reachable = true
  references : d.flow.ReferencesBelow n

theorem handlerHolds_references (env : Env) (locals : List VerificationType) (marker : String) :
    HandlerHolds env Instruction.MovesReferences locals marker where
  line number := ⟨by simp, by simp⟩
  call := ⟨by simp, by simp⟩
  answer {type} h := by
    have htype := ((writes_fixed env.library).givesReference _ h).2 type rfl
    exact ⟨by simp, fun _ =>
      ⟨_, [], rfl, (VerificationType.isReference_ofFieldType type).trans htype⟩⟩

end Draft

namespace Operation

/-- An operation that control goes on from turns stacks with references below their top `m` entries
into stacks with references below their top `n`. -/
structure Carries (m n : Nat) (op : Operation) : Prop where
  continues : op ≠ .areturn
  narrow : op = .discard → m = 0
  effect {f f' : Flow} (h : f.ReferencesBelow m)
    (heffect : op.instruction.effect? none 0 f = some f') : f'.ReferencesBelow n

def CarryAll : List Operation → Nat → Nat → Prop
  | [], m, n => m = n
  | op :: operations, m, n => ∃ k, op.Carries m k ∧ CarryAll operations k n

/-- Instructions that have no effect on an empty stack are not those of integers. -/
theorem intInstruction_ne {value : Int32} {i : Instruction}
    (h : i.effect? none 0 ⟨[], []⟩ = none) : Draft.intInstruction value ≠ i := by
  rintro rfl
  rw [Draft.effect?_intInstruction] at h
  cases h

theorem instruction_movesReferences {op : Operation} (h : op ≠ .areturn) (f : Flow) :
    op.instruction.MovesReferences f := by
  cases op with
  | areturn => exact absurd rfl h
  | int value => exact ⟨intInstruction_ne rfl, fun heq => absurd heq (intInstruction_ne rfl)⟩
  | _ => exact ⟨by simp [instruction], by simp [instruction]⟩

variable {m n : Nat} {d : Draft}

/-- One operation, if it is no fault. -/
theorem Carries.step {op : Operation} (h : op.Carries m n) (hd : d.Referential m)
    (hf : (d.step op.step).fault = none) :
    (d.step op.step).Referential n ∧
      ∀ i, d.Performs i (d.step op.step) → i.MovesReferences d.flow := by
  rcases Draft.step_operation hd.reachable op hf with
    ⟨hsame, number, rfl⟩ | hperforms | ⟨rfl, -, t, ht, hwide⟩
  · rw [hsame]
    refine ⟨⟨hd.reachable, h.effect hd.references rfl⟩, fun i hi => ?_⟩
    have hsize := congrArg Array.size hi.code
    simp at hsize
  · refine ⟨⟨?_, ?_⟩, fun i hi => ?_⟩
    · rw [hperforms.reachable, endsFlow_instruction h.continues]
      rfl
    · have heffect := hperforms.effect
      rw [effect?_eq] at heffect
      exact h.effect hd.references heffect
    · rw [eq_of_performs hi hperforms]
      exact instruction_movesReferences h.continues _
  · cases h.narrow rfl
    have hreference := hd.references.stack t ht
    rw [VerificationType.isWide_of_isReference hreference] at hwide
    cases hwide

theorem CarryAll.run {operations : List Operation} (h : CarryAll operations m n)
    (hd : d.Referential m) (hf : (d.runOperations operations).fault = none) :
    (d.runOperations operations).Referential n ∧
      d.Along Instruction.MovesReferences (operations.map Operation.step) := by
  induction operations generalizing m d with
  | nil =>
    cases h
    exact ⟨hd, trivial⟩
  | cons op operations ih =>
    obtain ⟨k, hop, hrest⟩ := h
    obtain ⟨hstep, halong⟩ := hop.step hd (Draft.fault_run hf)
    obtain ⟨hrun, hothers⟩ := ih hrest hstep hf
    exact ⟨hrun, fun _ => halong, hothers⟩

theorem CarryAll.append {first second : List Operation} {k : Nat} (h : CarryAll first m k)
    (hs : CarryAll second k n) : CarryAll (first ++ second) m n := by
  induction first generalizing m with
  | nil =>
    cases h
    exact hs
  | cons op first ih =>
    obtain ⟨j, hop, hrest⟩ := h
    exact ⟨j, hop, ih hrest⟩

theorem carryAll_nil (n : Nat) : CarryAll [] n n := rfl

theorem Carries.single {op : Operation} (h : op.Carries m n) : CarryAll [op] m n := ⟨n, h, rfl⟩

theorem carries_line (number : Nat) : (line number).Carries 0 0 :=
  ⟨by simp, by simp, fun h heffect => by cases heffect; exact h⟩

/-- A line may be opened first. -/
theorem CarryAll.line {operations : List Operation} (h : CarryAll operations 0 n) (number : Nat) :
    CarryAll (.line number :: operations) 0 n :=
  ⟨0, carries_line number, h⟩

theorem carries_dup : dup.Carries 0 0 := by
  refine ⟨by simp, by simp, fun {f f'} h heffect => ?_⟩
  cases hs : f.stack with
  | nil => simp [instruction, Instruction.effect?, Flow.plain?, hs] at heffect
  | cons t rest =>
    simp only [instruction, Instruction.effect?, Flow.plain?, hs, Option.some.injEq] at heffect
    subst heffect
    exact h.pushReference (h.stack t (by simp [hs]))

theorem carries_discard : discard.Carries 0 0 :=
  ⟨by simp, by simp, fun h heffect => h.drop (Nat.zero_le 1) heffect⟩

theorem carries_int (value : Int32) : (int value).Carries 0 1 := by
  refine ⟨by simp, by simp, fun h heffect => ?_⟩
  rw [instruction, Draft.effect?_intInstruction] at heffect
  cases heffect
  exact h.push _

theorem carries_string (text : String) : (string text).Carries 0 0 :=
  ⟨by simp, by simp, fun h heffect => by cases heffect; exact h.pushReference rfl⟩

theorem carries_load (slot : UInt16) : (load slot).Carries 0 0 := by
  refine ⟨by simp, by simp, fun h heffect => ?_⟩
  obtain ⟨t, ht, rfl⟩ := Option.map_eq_some_iff.1 heffect
  exact h.pushReference (h.locals t (List.mem_of_getElem? ht))

theorem carries_load_above (slot : UInt16) (n : Nat) : (load slot).Carries n (n + 1) := by
  refine ⟨by simp, by simp, fun h heffect => ?_⟩
  obtain ⟨t, -, rfl⟩ := Option.map_eq_some_iff.1 heffect
  exact h.push t

/-- A call takes what it is given, integers included, and gives a reference. -/
theorem effect_invoke {op : Opcode} {method : MemberRef} (hop : op ≠ .invokespecial)
    (hm : GivesReference n method.descriptor) {f f' : Flow} (h : f.ReferencesBelow n)
    (heffect : (Instruction.invoke op method).effect? none 0 f = some f') :
    f'.ReferencesBelow 0 := by
  obtain ⟨d, f₁, f₂, hparse, hdrop, hreceive, rfl⟩ := Instruction.effect?_invoke _ heffect
  obtain ⟨hlength, hresult⟩ := hm _ hparse
  rw [Flow.receive?_eq_drop? _ _ _ hop] at hreceive
  exact ((h.drop hlength hdrop).drop (Nat.zero_le _) hreceive).pushResult hresult

theorem carries_invokeVirtual {method : MemberRef} (h : GivesReference n method.descriptor) :
    (invokeVirtual method).Carries n 0 :=
  ⟨by simp, by simp, effect_invoke (by simp) h⟩

theorem carries_invokeStatic {method : MemberRef} (h : GivesReference n method.descriptor) :
    (invokeStatic method).Carries n 0 :=
  ⟨by simp, by simp, effect_invoke (by simp) h⟩

theorem carries_invokeDynamic {site : CallSite} (h : GivesReference n site.descriptor) :
    (invokeDynamic site).Carries n 0 := by
  refine ⟨by simp, by simp, fun hf heffect => ?_⟩
  obtain ⟨descriptor, hparse, heffect⟩ := Option.bind_eq_some_iff.1 heffect
  obtain ⟨f₁, hdrop, rfl⟩ := Option.map_eq_some_iff.1 heffect
  obtain ⟨hlength, hresult⟩ := h _ (eq_ok_of_toOption hparse)
  exact (hf.drop hlength hdrop).pushResult hresult

theorem carries_getStatic {field : MemberRef} {t : FieldType}
    (h : FieldType.parse field.descriptor = .ok t) (ht : t.isReference = true) :
    (getStatic field).Carries 0 0 := by
  refine ⟨by simp, by simp, fun hf heffect => ?_⟩
  obtain ⟨t', hparse, rfl⟩ := Option.map_eq_some_iff.1 heffect
  cases h.symm.trans (eq_ok_of_toOption hparse)
  exact hf.pushReference ((VerificationType.isReference_ofFieldType t).trans ht)

section

variable (env : Env)

theorem carryAll_fixed (accessor : String) : CarryAll (fixed env accessor) 0 0 :=
  ⟨0, carries_load 1, 0, carries_invokeVirtual (writes_fixed env.library).givesReference, rfl⟩

theorem carryAll_literal (kind : LiteralKind) (text : String) :
    CarryAll (literal env kind text) 0 0 :=
  ⟨0, carries_load 1, 0, carries_string text, 0,
    carries_invokeVirtual (givesReference_object env.library _), rfl⟩

theorem carryAll_global (name : String) : CarryAll (global env name) 0 0 :=
  ⟨0, carries_load 1, 0, carries_string name, 0,
    carries_invokeVirtual (givesReference_object env.library _), rfl⟩

/-- The integer that is pushed is the one parameter of the call. -/
theorem carryAll_slot (accessor : String) (n : UInt16) : CarryAll (slot env accessor n) 0 0 :=
  ⟨0, carries_load 2, 1, carries_int _, 0,
    carries_invokeVirtual (writes_ofInt env.library).givesReference, rfl⟩

theorem carryAll_initTemporaries (count : UInt16) : CarryAll (initTemporaries env count) 0 0 :=
  ⟨0, carries_load 2, 1, carries_int _, 0, carries_invokeVirtual writes_count.givesReference, rfl⟩

theorem givesReference_store : GivesReference 2
    s!"({env.library.objectType}I{env.library.contextType})V" := by
  intro d hd
  have htext : s!"({env.library.objectType}I{env.library.contextType})V".toList =
      '(' :: (('L' :: (env.library.object.toList ++ [';', 'I', 'L']) ++
        env.library.context.toList) ++ ';' :: ')' :: ['V']) := by
    simp [toList_objectType, toList_contextType, Parameter.text]
  obtain ⟨-, hlength, hnone⟩ := Descriptor.method_parameters (Descriptor.parse_ok hd htext)
  refine ⟨Nat.le_trans (Nat.succ_le_succ (List.one_le_count_iff.2 (by simp))) hlength,
    fun t ht => ?_⟩
  cases (hnone rfl).symm.trans ht

theorem carryAll_assign (n : UInt16) : CarryAll (assign env n) 0 0 :=
  ⟨0, carries_dup, 1, carries_int _, 2, carries_load_above 2 1, 0,
    carries_invokeStatic (givesReference_store env), rfl⟩

theorem carryAll_dispatch (selector : String) (arity : Nat) (r : Receiver) (span : Span) :
    CarryAll (dispatch env selector arity r span) 0 0 :=
  ⟨0, carries_line _, 0, carries_string selector, 0,
    carries_invokeVirtual (givesReference_object env.library _), rfl⟩

theorem carryAll_pseudo (word : Pseudo) : CarryAll (pseudo env word) 0 0 := by
  cases word with
  | self | super => exact (carries_load 1).single
  | nil | true | false => exact carryAll_fixed env _

theorem carryAll_reference (name : String) (resolution : Resolution) :
    CarryAll (reference env name resolution) 0 0 := by
  cases resolution with
  | temporary n | argument n => exact carryAll_slot env _ n
  | unresolved => exact carryAll_global env name

theorem carryAll_block (literal : BlockLiteral) (name : String) :
    CarryAll (block env literal name) 0 0 := by
  have hobject (method : String) {start : String} :
      (object env method (start ++ env.library.objectType)).Carries 0 0 :=
    carries_invokeVirtual (givesReference_object env.library start)
  have hmade : CarryAll
      [.line literal.span.line, .load 1, .invokeDynamic (blockSite env name)] 0 0 :=
    ⟨0, carries_line _, 0, carries_load 1, 0,
      carries_invokeDynamic (writes_class env.library.lambdaBlock).givesReference, rfl⟩
  refine hmade.append ?_
  cases literal.role with
  | method => exact (hobject _).single
  | value =>
    cases literal.body.answers with
    | true => exact ⟨0, carries_string _, 0, hobject _, rfl⟩
    | false => exact (hobject _).single

theorem carryAll_declarations (temporaries : List Ident) :
    CarryAll (declarations env temporaries) 0 0 := by
  cases temporaries with
  | nil => rfl
  | cons first others => exact (carryAll_initTemporaries env _).line _

theorem carryAll_settling (isLast : Bool) (base depth : Nat) :
    CarryAll (Draft.settling env isLast base depth) 0 0 := by
  unfold Draft.settling
  split_ifs
  · exact carryAll_fixed env "referenceNil"
  · rfl
  · generalize depth - base = count
    induction count with
    | zero => rfl
    | succ count ih => exact ⟨0, carries_discard, ih⟩

end

end Operation

namespace Code

open Draft

variable {env : Env}

/-- Code that, if it goes through without a fault, takes stacks of references to stacks of
references. -/
def Carries (env : Env) (c : Code) : Prop :=
  ∀ d : Draft, d.Referential 0 → (c.run env d).fault = none →
    (c.run env d).Referential 0 ∧ c.Each env Instruction.MovesReferences d

/-- Code that, if it goes through without a fault, control does not come to the end of. -/
def Returns (env : Env) (c : Code) : Prop :=
  ∀ d : Draft, d.Referential 0 → (c.run env d).fault = none →
    (c.run env d).reachable = false ∧ c.Each env Instruction.MovesReferences d

theorem Carries.operations {ops : List Operation} (h : Operation.CarryAll ops 0 0) :
    (operations ops).Carries env :=
  fun _ hd hf => h.run hd hf

theorem Carries.nothing : (Code.operations []).Carries env := .operations rfl

theorem Carries.append {first second : Code} (h : first.Carries env) (k : second.Carries env) :
    (append first second).Carries env := by
  intro d hd hf
  obtain ⟨hfirst, heach⟩ := h d hd (fault_run env hf)
  obtain ⟨hsecond, hrest⟩ := k _ hfirst hf
  exact ⟨hsecond, heach, hrest⟩

theorem Carries.andReturns {first second : Code} (h : first.Carries env) (k : second.Returns env) :
    (Code.append first second).Returns env := by
  intro d hd hf
  obtain ⟨hfirst, heach⟩ := h d hd (fault_run env hf)
  obtain ⟨hsecond, hrest⟩ := k _ hfirst hf
  exact ⟨hsecond, heach, hrest⟩

theorem Carries.marker (name : String) : (marker name).Carries env :=
  fun _ hd _ => ⟨hd, trivial⟩

theorem referential_openRegion {d : Draft} (h : d.Referential 0) : d.openRegion.Referential 0 := by
  rw [openRegion_eq]
  exact ⟨h.reachable, h.references⟩

theorem each_region_references {span : Span} {body : Code} {d : Draft}
    (h : body.Each env Instruction.MovesReferences d.openRegion) :
    (region span body).Each env Instruction.MovesReferences d :=
  ⟨h, fun _ _ => handlerHolds_references env _ _⟩

/-- Behind its handlers a region goes on as it came to its end. -/
theorem Carries.region {body : Code} (h : body.Carries env) (span : Span) :
    (region span body).Carries env := by
  intro d hd hf
  obtain ⟨hbody, heach⟩ := h _ (referential_openRegion hd) (fault_closeRegion env hf)
  refine ⟨?_, each_region_references heach⟩
  by_cases hnone : body.markers = []
  · simpa only [run, Draft.closeRegion, hnone, ↓reduceIte] using hbody
  · have hcloses := closeRegion_closes env d.nextLabel span hnone hf
    refine ⟨hcloses.reachable.trans hbody.reachable, ?_⟩
    have hflow := hcloses.flow hbody.reachable
    rw [run, hflow]
    exact hbody.references

theorem Returns.region {body : Code} (h : body.Returns env) (span : Span) :
    (Code.region span body).Returns env := by
  intro d hd hf
  obtain ⟨hbody, heach⟩ := h _ (referential_openRegion hd) (fault_closeRegion env hf)
  refine ⟨?_, each_region_references heach⟩
  by_cases hnone : body.markers = []
  · simpa only [run, Draft.closeRegion, hnone, ↓reduceIte] using hbody
  · exact (closeRegion_closes env d.nextLabel span hnone hf).reachable.trans hbody

theorem Carries.statement {body : Code} (h : body.Carries env) (isLast : Bool) :
    (statement isLast body).Carries env := by
  intro d hd hf
  obtain ⟨hbody, heach⟩ := h d hd (Draft.fault_run hf)
  obtain ⟨hsettled, halong⟩ := (Operation.carryAll_settling env isLast _ _).run hbody hf
  exact ⟨hsettled, heach, halong⟩

theorem Returns.statement {body : Code} (h : body.Returns env) (isLast : Bool) :
    (Code.statement isLast body).Returns env := by
  intro d hd hf
  obtain ⟨hbody, heach⟩ := h d hd (Draft.fault_run hf)
  refine ⟨?_, heach, along_of_unreachable hbody _⟩
  rwa [run, Draft.settle, runOperations_of_unreachable hbody]

theorem Returns.andOperations {first : Code} (h : first.Returns env) (ops : List Operation) :
    (Code.append first (operations ops)).Returns env := by
  intro d hd hf
  obtain ⟨hfirst, heach⟩ := h d hd (fault_run env hf)
  refine ⟨?_, heach, along_of_unreachable hfirst ops⟩
  rwa [run, run, runOperations_of_unreachable hfirst]

theorem returns_areturn : (Code.operations [.areturn]).Returns env := by
  intro d hd hf
  have hperforms := plain_performs hd.reachable hf
  refine ⟨hperforms.reachable, fun _ i hi => ?_, trivial⟩
  rw [Operation.eq_of_performs hi hperforms]
  obtain ⟨t, rest, hs⟩ := exists_cons_of_drop? hperforms.effect
  exact ⟨by simp, fun _ => ⟨t, rest, hs, hd.references.stack t (by simp [hs])⟩⟩

/-- A statement that is not the last one drops all that it leaves. -/
theorem entries_discard {d : Draft} (hd : d.Referential 0) (n : Nat)
    (hf : (d.runOperations (List.replicate n .discard)).fault = none) :
    (d.runOperations (List.replicate n .discard)).stack.entries = d.stack.entries.drop n := by
  induction n generalizing d with
  | zero => rfl
  | succ n ih =>
    obtain ⟨hstep, -⟩ := Operation.carries_discard.step hd (Draft.fault_run hf)
    have hdropped : (d.step .discard).stack.entries = d.stack.entries.drop 1 := by
      rcases discard_performs hd.reachable (Draft.fault_run hf) with hperforms | ⟨-, t, ht, hwide⟩
      · have heffect : d.flow.drop? 1 = some (d.step .discard).flow := hperforms.effect
        simp only [Flow.drop?] at heffect
        split_ifs at heffect
        exact (congrArg Flow.stack (Option.some.inj heffect)).symm
      · rw [VerificationType.isWide_of_isReference (hd.references.stack t ht)] at hwide
        cases hwide
    refine (ih hstep hf).trans ?_
    rw [Operation.step, hdropped, List.drop_drop, Nat.add_comm]

/-- A statement that is not the last one and starts with nothing on the stack leaves nothing. -/
theorem entries_statement {body : Code} (h : body.Carries env) {d : Draft} (hd : d.Referential 0)
    (hempty : d.stack.entries = []) (hf : ((statement false body).run env d).fault = none) :
    ((statement false body).run env d).stack.entries = [] := by
  obtain ⟨hbody, -⟩ := h d hd (Draft.fault_run hf)
  have hbase : d.stack.depth = 0 := by rw [d.stack.depth_eq, hempty, List.length_nil]
  have hsettle : (statement false body).run env d = (body.run env d).runOperations
      (List.replicate (body.run env d).stack.depth .discard) := by
    rw [run, Draft.settle, settling, hbase]
    rfl
  rw [hsettle] at hf ⊢
  rw [entries_discard hbody _ hf, (body.run env d).stack.depth_eq, List.drop_length]

end Code

theorem ReferencesOnly.givesReference {descriptor : String} (h : ReferencesOnly descriptor) :
    GivesReference 0 descriptor := by
  obtain ⟨d, hd, hall⟩ := h
  intro d' hd'
  cases hd.symm.trans hd'
  exact ⟨Nat.zero_le _, fun t ht => hall t (by simp [ht])⟩

section

variable (env : Env)

/-- What a directive was checked for does not show in its operations. -/
theorem directive_carries {kind : Directive} {arguments : List String}
    (h : kind.Accepts arguments) :
    Operation.CarryAll (Operation.directive env kind arguments) 0 0 := by
  cases h with
  | @argLoad text n hindex =>
    simp only [Operation.directive, hindex]
    exact Operation.carryAll_slot env _ _
  | @aload text n hindex =>
    simp only [Operation.directive, hindex]
    exact (Operation.carries_load n).single
  | invokeVirtual hcall => exact (Operation.carries_invokeVirtual hcall.givesReference).single
  | invokeStatic hcall => exact (Operation.carries_invokeStatic hcall.givesReference).single
  | getStatic hparse ht => exact (Operation.carries_getStatic hparse ht).single
  | primitive hindex =>
    simp only [Operation.directive, hindex]
    exact ⟨0, Operation.carries_load 1, 0, Operation.carries_load 2, 0,
      Operation.carries_invokeVirtual (givesReference_object env.library _), rfl⟩

/-- The method of a sequence returns references, if what it answers without statements is one. -/
def Sequence.Returns (parameters : List Ident) (body : Sequence) : Prop :=
  ∀ {operations : List Operation}, Operation.CarryAll operations 0 0 →
    ∀ names k, (body.plan env parameters operations names k).Returns env

structure Carried (p : Plan) (literals : List BlockLiteral) : Prop where
  code (names : Nat → String) (k : Nat) : (p names k).Carries env
  blocks : ∀ literal ∈ literals, literal.body.Returns env literal.parameters

variable {env} {p q : Plan} {first second : List BlockLiteral}

theorem Carried.operations {operations : List Operation} (h : Operation.CarryAll operations 0 0) :
    Carried env (.operations operations) [] :=
  ⟨fun _ _ => .operations h, by simp⟩

theorem Carried.append (h : Carried env p first) (k : Carried env q second) (count : Nat) :
    Carried env (.append count p q) (first ++ second) :=
  ⟨fun names n => (h.code names n).append (k.code names _),
    List.forall_mem_append.2 ⟨h.blocks, k.blocks⟩⟩

theorem Carried.andOperations (h : Carried env p first) {operations : List Operation}
    (ho : Operation.CarryAll operations 0 0) (count : Nat) :
    Carried env (.append count p (.operations operations)) first := by
  have hboth := h.append (Carried.operations ho) count
  rwa [List.append_nil] at hboth

theorem Carried.region (h : Carried env p first) (wanted : Bool) (span : Span) :
    Carried env (.region wanted span p) first := by
  cases wanted with
  | false => exact h
  | true => exact ⟨fun names k => (h.code names k).region span, h.blocks⟩

theorem carried_block (literal : BlockLiteral)
    (hblocks : ∀ inner ∈ literal.body.blocks env, inner.body.Returns env inner.parameters)
    (hbody : literal.body.Returns env literal.parameters) :
    Carried env (literal.plan env) (literal.body.blocks env ++ [literal]) := by
  refine ⟨fun names k => ?_, List.forall_mem_append.2 ⟨hblocks, List.forall_mem_singleton.2 hbody⟩⟩
  refine Code.Carries.append (.operations (Operation.carryAll_block env literal _)) ?_
  split_ifs
  · exact .marker _
  · exact .nothing

end

variable {env : Env}

mutual

theorem Expr.carried (e : Expr) {resolve : String → Resolution} (h : e.Compiles env resolve) :
    Carried env (e.plan env resolve) (e.blocks env) := by
  cases e with
  | literal kind text span =>
    exact .operations ((Operation.carryAll_literal env kind text).line _)
  | pseudo word span =>
    exact .operations ((Operation.carryAll_pseudo env word).line _)
  | reference name span =>
    rw [Expr.plan]
    split_ifs
    · exact .operations (Operation.carryAll_nil 0)
    · exact .operations ((Operation.carryAll_reference env name _).line _)
  | block parameters body span =>
    obtain ⟨hbody, hblocks⟩ := body.carried h.body
    exact carried_block ⟨.value, parameters, body, span⟩ hblocks hbody
  | send target m span =>
    obtain ⟨htarget, hm⟩ := h.send
    exact ((target.carried htarget).append (m.carried hm) _).region _ _
  | cascade target messages span =>
    obtain ⟨-, htarget, s, s', hs, hcascade⟩ := h.cascade
    exact (target.carried htarget).append (cascade_carried messages (hs.cascade hcascade)) _
  | assign target value span =>
    obtain ⟨⟨slot, hslot⟩, hvalue⟩ := h.assign
    simp only [Expr.plan, hslot]
    exact (value.carried hvalue.compiles).andOperations
      ((Operation.carryAll_assign env slot).line _) _
  | paren inner span => exact inner.carried h.inner.compiles
  | primitive number span =>
    obtain ⟨s, r, s', -, h⟩ := h
    cases h

theorem Message.carried (m : Message) {resolve : String → Resolution} {r : Receiver}
    (h : m.Compiles env resolve r) : Carried env (m.plan env resolve r) (m.blocks env) := by
  cases m with
  | unary selector => exact .operations (Operation.carryAll_dispatch env _ _ r _)
  | binary selector argument span =>
    exact (argument.carried h.binary.2.compiles).andOperations
      (Operation.carryAll_dispatch env _ _ r _) _
  | keyword parts span =>
    rw [Message.plan, Message.blocks]
    by_cases hr : r = .escape
    · subst hr
      obtain ⟨kind, arguments, hkind, harguments, hdirective⟩ := h.directive
      simp only [↓reduceIte, Operation.escape, hkind, harguments,
        argumentBlocks_of_directive env harguments]
      exact .operations ((directive_carries env hdirective).line _)
    · rw [if_neg hr]
      exact (arguments_carried parts (h.arguments hr)).andOperations
        (Operation.carryAll_dispatch env _ _ r _) _

theorem cascade_carried (messages : List Message) {resolve : String → Resolution} {r : Receiver}
    (h : ∀ m ∈ messages, m.Compiles env resolve r) :
    Carried env (cascadePlan env resolve r messages) (messageBlocks env messages) := by
  cases messages with
  | nil => exact .operations (Operation.carryAll_nil 0)
  | cons m rest =>
    obtain ⟨hm, hrest⟩ := List.forall_mem_cons.1 h
    have hmessage := m.carried hm
    have hothers := cascade_carried rest hrest
    rw [cascadePlan, messageBlocks]
    have hsent := hmessage.region m.isKeyword m.span
    split_ifs
    · exact hmessage.append hothers _
    · have hnothing : Carried env (.operations []) [] := .operations (Operation.carryAll_nil 0)
      exact hnothing.append (hsent.append (hnothing.append hothers _) _) _
    · exact (Carried.operations Operation.carries_dup.single).append
        (hsent.append ((Carried.operations Operation.carries_discard.single).append hothers _) _) _

theorem arguments_carried (parts : List KeywordPart) {resolve : String → Resolution}
    (h : ∀ part ∈ parts, part.argument.IsArgument env resolve) :
    Carried env (argumentsPlan env resolve parts) (argumentBlocks env parts) := by
  cases parts with
  | nil => exact .operations (Operation.carryAll_nil 0)
  | cons part rest =>
    obtain ⟨hpart, hrest⟩ := List.forall_mem_cons.1 h
    have hothers := arguments_carried rest hrest
    obtain ⟨keyword, argument⟩ := part
    cases argument with
    | block parameters body span =>
      obtain ⟨hbody, hblocks⟩ := body.carried hpart
      exact (carried_block ⟨roleOf env keyword.name, parameters, body, span⟩ hblocks hbody).append
        hothers _
    | _ => exact (Expr.carried _ hpart.compiles).append hothers _

theorem Sequence.carried (body : Sequence) {parameters : List Ident}
    (h : body.Compiles env parameters) :
    body.Returns env parameters ∧
      ∀ literal ∈ body.blocks env, literal.body.Returns env literal.parameters := by
  obtain ⟨temporaries, ss, span⟩ := body
  obtain ⟨s, s', hs, hstatements⟩ := h.run_statements
  have hdeclarations : (Code.operations (Operation.declarations env temporaries)).Carries env :=
    .operations (Operation.carryAll_declarations env temporaries)
  obtain ⟨hcode, hblocks⟩ := statements_carried ss hs hstatements
  refine ⟨fun ho names k => hdeclarations.andReturns ?_, hblocks⟩
  cases ss with
  | nil => exact Code.Carries.andReturns (.operations (ho.line _)) Code.returns_areturn
  | cons first others =>
    rcases hcode names _ with hcarries | hends
    · exact hcarries.andReturns Code.returns_areturn
    · exact hends.andOperations _

theorem statements_carried (ss : List Statement) {resolve : String → Resolution} {s s' : State}
    (hs : s.Resolves resolve) (h : statements env ss s = .ok () s') :
    (∀ names k, (statementsPlan env resolve ss names k).Carries env ∨
      (statementsPlan env resolve ss names k).Returns env) ∧
      ∀ literal ∈ statementBlocks env ss, literal.body.Returns env literal.parameters := by
  cases ss with
  | nil => exact ⟨fun _ _ => .inl .nothing, by simp [statementBlocks]⟩
  | cons statement rest =>
    obtain ⟨hlast, s₁, hstatement, hrest⟩ := statements_cons_ok env h
    have hs₁ := hs.keeps (keeps_statement env _ statement) hstatement
    have hvalue := (hs.statement hstatement).compiles
    obtain ⟨hcode, hothers⟩ := statements_carried rest hs₁ hrest
    -- An answer ends the flow, any other statement goes on.
    cases statement with
    | expression value =>
      have hcarried := value.carried hvalue
      have hcarries (names : Nat → String) (k : Nat) :
          ((Statement.expression value).plan env resolve rest.isEmpty names k).Carries env :=
        ((hcarried.code names k).region _).statement _
      exact ⟨fun names k => (hcode names _).imp (hcarries names k).append
        (hcarries names k).andReturns, List.forall_mem_append.2 ⟨hcarried.blocks, hothers⟩⟩
    | answer value span =>
      have hcarried := value.carried hvalue
      obtain rfl : rest = [] := hlast rfl
      refine ⟨fun names k => .inr (Code.Returns.andOperations ?_ []),
        List.forall_mem_append.2 ⟨hcarried.blocks, hothers⟩⟩
      refine Code.Returns.statement (Code.Returns.region ?_ _) _
      exact Code.Carries.andReturns (.operations (Operation.carries_line _).single)
        ((hcarried.code names _).andReturns Code.returns_areturn)

end

end SmalltalkJvm
