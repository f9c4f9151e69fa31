import SmalltalkJvm.Proofs.ExpressionTypes

/-! # Types of the methods without source text

The constructor of a unit, the methods that tell its package and resolve its imports and the
constructors of its marker classes are straight code. Their calls find values of the types they
declare as soon as the descriptors in them can be read.
-/

namespace SmalltalkJvm

open Compile Draft

variable {env : Env} {result : Option FieldType} {this : Option String} {place : Nat}
  {locals stack : List VerificationType} {steps : List Step}

namespace Draft

/-- An operation in straight code. -/
theorem Proceeds.operation {op : Operation} {stack' : List VerificationType}
    (hop : op.Turns (env.Types result) locals stack stack')
    (emits : op.step.instruction? = some op.instruction)
    (rest : Proceeds (env.Types result) this (place + 1) ⟨stack', locals⟩ steps) :
    Proceeds (env.Types result) this place ⟨stack, locals⟩ (op.step :: steps) :=
  .next emits (Operation.endsFlow_instruction hop.continues)
    ((op.effect?_eq ..).trans hop.effect) hop.holds rest

theorem Proceeds.load {slot : UInt16} {t : VerificationType} (h : locals[slot.toNat]? = some t)
    (rest : Proceeds (env.Types result) this (place + 1) ⟨t :: stack, locals⟩ steps) :
    Proceeds (env.Types result) this place ⟨stack, locals⟩ (.load slot :: steps) :=
  .operation (Operation.turns_load stack h) rfl rest

section

variable {s : Signature} (arguments : List VerificationType) {owner name descriptor : String}
  (hw : s.Writes descriptor) (hl : Legible descriptor)
  (ha : List.Forall₂ (VerificationType.AssignableTo env) arguments s.descriptor.parameters)
include hw hl ha

theorem Proceeds.call {receiver : VerificationType}
    (hr : receiver.AssignableTo env (.reference owner))
    (rest : Proceeds (env.Types result) this (place + 1) ⟨s.leave stack, locals⟩ steps) :
    Proceeds (env.Types result) this place ⟨arguments.reverse ++ receiver :: stack, locals⟩
      (.invoke .invokevirtual ⟨owner, name, descriptor⟩ :: steps) := by
  have hcall : (Operation.invokeVirtual ⟨owner, name, descriptor⟩).Turns (env.Types result) locals
      (arguments.reverse ++ receiver :: stack) (s.leave stack) :=
    Operation.turns_invokeVirtual stack ha hw hl hr
  exact .operation hcall rfl rest

/-- A constructor call completes its receiver wherever that stands. -/
theorem Proceeds.construct {receiver : VerificationType} (hs : s.result = none)
    (hr : receiver = .uninitializedThis ∨ ∃ creation, receiver = .uninitialized creation)
    (rest : Proceeds (env.Types result) this (place + 1)
      ((⟨stack, locals⟩ : Flow).construct this owner receiver) steps) :
    Proceeds (env.Types result) this place ⟨arguments.reverse ++ receiver :: stack, locals⟩
      (.invoke .invokespecial ⟨owner, "<init>", descriptor⟩ :: steps) := by
  have hparse := hw.parse hl
  have hnone : s.descriptor.result = none := by simp [Signature.descriptor, hs]
  refine .next rfl rfl ?_ ⟨s.descriptor, arguments, [receiver], stack, hparse, rfl, ha, ?_⟩ rest
  · simp only [Instruction.effect?, hparse, Except.toOption, Option.bind_some,
      drop?_arguments ha.length_eq.symm, Flow.receive?, hnone, Flow.pushResult]
    rfl
  · rw [if_neg (by decide)]
    refine ⟨receiver, rfl, ?_⟩
    rw [VerificationType.Receives, if_pos ⟨rfl, rfl⟩]
    exact hr

end

end Draft

theorem legible_nothing : Legible "()V" := writes_nothing.legible ⟨by simp, by simp⟩

theorem legible_text : Legible "()Ljava/lang/String;" := writes_text.legible ⟨by simp, by simp⟩

theorem legible_import : Legible "(Ljava/lang/String;)V" :=
  writes_import.legible ⟨by simp [Parameter.Legal], by simp⟩

theorem writes_importFor : Signature.Writes ⟨[.object "java/lang/String"], some "java/lang/String"⟩
    "(Ljava/lang/String;)Ljava/lang/String;" :=
  ⟨by simp [Signature.Plain, Parameter.Plain],
    by simp [Signature.text, Signature.resultText, Parameter.text]⟩

theorem writes_importForBy :
    Signature.Writes ⟨[.object "java/lang/String", .object "java/lang/String"],
      some "java/lang/String"⟩ "(Ljava/lang/String;Ljava/lang/String;)Ljava/lang/String;" :=
  ⟨by simp [Signature.Plain, Parameter.Plain],
    by simp [Signature.text, Signature.resultText, Parameter.text]⟩

theorem legible_importFor : Legible "(Ljava/lang/String;)Ljava/lang/String;" :=
  writes_importFor.legible ⟨by simp [Parameter.Legal], by simp⟩

theorem legible_importForBy :
    Legible "(Ljava/lang/String;Ljava/lang/String;)Ljava/lang/String;" :=
  writes_importForBy.legible ⟨by simp [Parameter.Legal], by simp⟩

theorem assignable_own : (VerificationType.object env.unit.internal).AssignableTo env
    (.reference env.library.object) :=
  .inr (.inr ⟨rfl, rfl⟩)

/-- A draft of a method without source text starts fresh. -/
theorem fresh_method (env : Env) (locals : List VerificationType) : (env.method locals).Fresh :=
  ⟨rfl, rfl, rfl, rfl, rfl, rfl⟩

theorem fresh_constructor (thisClass : String) (parameters : List VerificationType) (lines : Bool) :
    (Draft.constructor thisClass parameters lines).Fresh :=
  ⟨rfl, rfl, rfl, rfl, rfl, rfl⟩

section

variable (hl : env.library.Plain) (hobject : Legible s!"({env.library.objectType})V")
include hl hobject

theorem markerConstructor_typed (name : String) :
    ∃ b, (markerConstructor env name).finish = .ok b ∧ b.Verified (some name) (env.Types none) := by
  refine Proceeds.finish (fresh_constructor name [env.value] true) ?_
  refine .load rfl (.load rfl ?_)
  refine .construct [env.value] (writes_takeObject hl) hobject (.cons (assignable_object _) .nil)
    rfl (.inl rfl) ?_
  exact .last rfl rfl rfl rfl

theorem constructor_proceeds (hscript : Legible env.library.scriptDescriptor) (place : Nat) :
    Proceeds (env.Types none) (some env.unit.internal) place ⟨[], [.uninitializedThis]⟩
      (constructorSteps env).tail := by
  have hmade (n : Nat) : (⟨[.uninitialized n], [.object env.unit.internal]⟩ : Flow).construct
      (some env.unit.internal) env.library.context (.uninitialized n) =
        ⟨[.object env.library.context], [.object env.unit.internal]⟩ := by
    simp [Flow.construct, Flow.complete]
  -- The object is constructed, and its package is imported.
  refine .load rfl (.construct [] writes_nothing legible_nothing .nil rfl (.inl rfl) ?_)
  change Proceeds _ _ _ ⟨[], [.object env.unit.internal]⟩ _
  refine .load rfl (.load rfl (.call [] writes_text legible_text .nil assignable_own ?_))
  refine .call [.object "java/lang/String"] writes_import legible_import
    (.cons (assignable_object _) .nil) assignable_own ?_
  -- Its context is made for it.
  refine .next rfl rfl rfl trivial (.next rfl rfl rfl trivial (.load rfl ?_))
  refine .construct [.object env.unit.internal] (writes_takeObject hl) hobject
    (.cons assignable_own .nil) rfl (.inr ⟨_, rfl⟩) ?_
  refine (congrArg (Proceeds _ _ _ · _) (hmade _)).mpr (.next rfl rfl rfl trivial ?_)
  change Proceeds _ _ _ ⟨[], [.object env.unit.internal, .object env.library.context]⟩ _
  -- The script runs on it.
  refine .load rfl (.load rfl ?_)
  refine .call [.object env.unit.internal] (writes_takeObject hl) hobject
    (.cons assignable_own .nil) (assignable_object _) ?_
  refine .load rfl (.load rfl (.load rfl ?_))
  refine .call [.object env.unit.internal, .object env.library.context] (writes_script hl) hscript
    (.cons assignable_own (.cons (assignable_object _) .nil)) (assignable_object _) ?_
  exact .next rfl rfl rfl trivial (.last rfl rfl rfl rfl)

end

/-- The class loader's name can be read, since the method asks for it. -/
theorem legible_of_importFor {m : Method} (h : importForMethod env = .ok m) :
    Legible s!"()L{env.library.classLoader};" := by
  obtain ⟨hfinish, -⟩ := fixedMethod_ok h
  have hfault := (finishes_of_finish hfinish).fault
  obtain ⟨d, hd⟩ : ∃ d, d = (env.method [.object env.library.object,
    .object "java/lang/String"]).step (.load 0) := ⟨_, rfl⟩
  have hcall : (d.step (.invoke .invokevirtual ⟨env.library.object, "classLoader",
      s!"()L{env.library.classLoader};"⟩)).fault = none := by
    rw [hd]
    exact fault_run hfault
  have heffect := (step_performs (by rw [hd]; rfl) rfl hcall).effect
  obtain ⟨descriptor, hdescriptor, -⟩ := Option.bind_eq_some_iff.1 heffect
  exact ⟨descriptor, eq_ok_of_toOption hdescriptor⟩

/-- The descriptor of a method can be read, and the body's instructions find values of the types
that they and the method declare. -/
def Method.WellTyped (env : Env) (c : ClassFile) (m : Method) : Prop :=
  ∃ d, MethodDescriptor.parse m.descriptor = .ok d ∧
    m.body.Verified (m.constructs c) (env.Types d.result)

theorem fixedMethod_typed {access : UInt16} {name descriptor : String} {draft : Draft} {m : Method}
    (h : fixedMethod access name descriptor draft = .ok m) {P : Flow → Instruction → Prop}
    (ht : ∃ b, draft.finish = .ok b ∧ b.Verified this P) :
    m.descriptor = descriptor ∧ m.body.Verified this P := by
  obtain ⟨b, hb, hverified⟩ := ht
  rw [fixedMethod, hb] at h
  cases h
  exact ⟨rfl, hverified⟩

theorem packageNameMethod_typed {m : Method} (h : packageNameMethod env = .ok m) :
    m.descriptor = "()Ljava/lang/String;" ∧
      m.body.Verified none (env.Types (some (.reference "java/lang/String"))) := by
  refine fixedMethod_typed h (Proceeds.finish (fresh_method env _) ?_)
  refine .operation (Operation.turns_string [] _) rfl ?_
  exact .last rfl rfl rfl ⟨_, _, _, rfl, rfl, assignable_object _⟩

theorem importForMethod_typed {m : Method} (h : importForMethod env = .ok m) :
    m.descriptor = "(Ljava/lang/String;)Ljava/lang/String;" ∧
      m.body.Verified none (env.Types (some (.reference "java/lang/String"))) := by
  refine fixedMethod_typed h (Proceeds.finish (fresh_method env _) ?_)
  refine .load rfl (.call [] (writes_class _) (legible_of_importFor h) .nil
    (assignable_object _) ?_)
  refine .load rfl (.load rfl (.call [] writes_text legible_text .nil (assignable_object _) ?_))
  refine .call [.object "java/lang/String", .object "java/lang/String"] writes_importForBy
    legible_importForBy (.cons (assignable_object _) (.cons (assignable_object _) .nil))
    (assignable_object _) ?_
  exact .last rfl rfl rfl ⟨_, _, _, rfl, rfl, assignable_object _⟩

theorem constructor_typed {m : Method} (h : constructor env = .ok m) :
    m.descriptor = "()V" ∧ m.body.Verified (some env.unit.internal) (env.Types none) := by
  obtain ⟨hl, hobject, hscript⟩ := readable_of_constructor h
  exact fixedMethod_typed h (Proceeds.finish_line (fresh_constructor _ _ _) trivial
    (constructor_proceeds hl hobject hscript))

theorem fixedMethods_typed {methods : List Method} (h : fixedMethods env = .ok methods)
    {c : ClassFile} (hc : c.name = env.unit.internal) {m : Method} (hm : m ∈ methods) :
    m.WellTyped env c := by
  obtain ⟨construct, hconstruct, hall⟩ := fixedMethods_ok h
  rcases hall m hm with rfl | hpackage | himport
  · obtain ⟨hdescriptor, hverified⟩ := constructor_typed hconstruct
    refine ⟨_, by rw [hdescriptor]; exact writes_nothing.parse legible_nothing, ?_⟩
    rw [Method.constructs, if_pos (fixedMethod_ok hconstruct).2, hc]
    exact hverified
  · obtain ⟨hdescriptor, hverified⟩ := packageNameMethod_typed hpackage
    refine ⟨_, by rw [hdescriptor]; exact writes_text.parse legible_text, ?_⟩
    rw [Method.constructs, if_neg (by rw [(fixedMethod_ok hpackage).2]; decide)]
    exact hverified
  · obtain ⟨hdescriptor, hverified⟩ := importForMethod_typed himport
    refine ⟨_, by rw [hdescriptor]; exact writes_importFor.parse legible_importFor, ?_⟩
    rw [Method.constructs, if_neg (by rw [(fixedMethod_ok himport).2]; decide)]
    exact hverified

end SmalltalkJvm
