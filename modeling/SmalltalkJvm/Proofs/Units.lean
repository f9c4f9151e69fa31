import SmalltalkJvm.Compile.Unit
import SmalltalkJvm.Proofs.Calls
import SmalltalkJvm.Proofs.Generation
import SmalltalkJvm.Proofs.StackMaps
import SmalltalkJvm.Proofs.OutlinedUnits

/-! # Compiled units are sound

What the classes of a compiled unit consist of: the methods without source text, whose code is
straight, the script's own method and those of its blocks, whose code is structured, and one
constructor for each marker class. So the body of every method of every class is verified, and its
stack maps hold whatever way control takes.
-/

namespace SmalltalkJvm

open Compile

theorem CompiledClass.file_of_assemble {file : ClassFile} {c : CompiledClass}
    (h : CompiledClass.assemble file = .ok c) : c.file = file ∧ file.bytes = .ok c.bytes := by
  unfold CompiledClass.assemble at h
  split at h
  · rename_i bytes hbytes
    cases h
    exact ⟨rfl, hbytes⟩
  · cases h

theorem CompiledClass.files_of_assemble {files : List ClassFile} {classes : List CompiledClass}
    (h : files.mapM CompiledClass.assemble = .ok classes) :
    classes.map CompiledClass.file = files := by
  rw [← List.forall₂_eq_eq_eq, List.forall₂_map_left_iff]
  exact (except_mapM_ok h).flip.imp fun c file hc => (file_of_assemble hc).1

structure CompiledUnit.Consists (u : CompiledUnit) (env : Env) (script : Script) (g : Generated)
    (fixed : List Method) : Prop where
  generates : generate env script = .ok g
  prepares : fixedMethods env = .ok fixed
  name : u.primary.file.name = env.unit.internal
  methods : u.primary.file.methods = fixed ++ g.sendMessages :: g.blocks
  markers : u.markers.map CompiledClass.file = g.markers

theorem compileUnit_consists {settings : Settings} {unit : UnitName} {script : Script}
    {u : CompiledUnit} (h : compileUnit settings unit script = .ok u) :
    ∃ g fixed, u.Consists ⟨settings, unit⟩ script g fixed := by
  obtain ⟨g, hgenerate, h⟩ := except_bind_ok h
  obtain ⟨file, hfile, h⟩ := except_bind_ok h
  obtain ⟨primary, hprimary, h⟩ := except_bind_ok h
  obtain ⟨markers, hmarkers, h⟩ := except_bind_ok h
  cases h
  obtain ⟨fixed, hfixed, hfile⟩ := except_bind_ok hfile
  cases hfile
  have hprimary := (CompiledClass.file_of_assemble hprimary).1
  exact ⟨g, fixed, hgenerate, hfixed, by rw [hprimary], by rw [hprimary],
    CompiledClass.files_of_assemble hmarkers⟩

theorem fixedMethod_ok {access : UInt16} {name descriptor : String} {draft : Draft} {m : Method}
    (h : fixedMethod access name descriptor draft = .ok m) :
    draft.finish = .ok m.body ∧ m.name = name := by
  unfold fixedMethod at h
  split at h
  · rename_i body hbody
    cases h
    exact ⟨hbody, rfl⟩
  · cases h

/-- The methods before the script's own. -/
theorem fixedMethods_ok {env : Env} {methods : List Method}
    (h : fixedMethods env = .ok methods) :
    ∃ construct, constructor env = .ok construct ∧ ∀ m ∈ methods, m = construct ∨
      packageNameMethod env = .ok m ∨ importForMethod env = .ok m := by
  obtain ⟨construct, hconstruct, h⟩ := except_bind_ok h
  obtain ⟨packageName, hpackage, h⟩ := except_bind_ok h
  refine ⟨construct, hconstruct, ?_⟩
  split_ifs at h
  · cases h
    simp [hpackage]
  · obtain ⟨importFor, himport, h⟩ := except_bind_ok h
    cases h
    simp [hpackage, himport]

def Method.constructs (m : Method) (c : ClassFile) : Option String :=
  if m.name = "<init>" then some c.name else none

namespace Draft

/-- A line may be opened first. -/
theorem run_line_writes {d : Draft} (hr : d.reachable = true) {number : Nat} (steps : List Step)
    {last : Step} {added : List Instruction} {i : Instruction}
    (hf : (d.run (.line number :: (steps ++ [last]))).fault = none)
    (hsteps : steps.mapM Step.instruction? = some added)
    (hends : ∀ i ∈ added, i.endsFlow = false) (hlast : last.instruction? = some i) :
    ∃ opened, (∀ i ∈ opened, i = .line number) ∧
      Writes Any d (d.run (.line number :: (steps ++ [last]))) (opened ++ (added ++ [i])) := by
  rcases line_performs hr number with h | h
  · refine ⟨[], by simp, ?_⟩
    have hrun : d.run (.line number :: (steps ++ [last])) = d.run (steps ++ [last]) := by
      rw [run_cons, step, h]
    rw [hrun] at hf ⊢
    exact run_writes hr steps hf hsteps hends hlast
  · have hreach : (d.openLine number).reachable = true := by rw [h.reachable]; rfl
    exact ⟨[.line number], by simp, (h.writes hr rfl trivial).trans
      (run_writes hreach steps hf hsteps hends hlast)⟩

end Draft

section Fixed

variable {env : Env} {m : Method}

def constructorCode (env : Env) : List Instruction :=
  let l := env.library
  let this := env.unit.internal
  [.slot .aload 0,
    .invoke .invokespecial ⟨l.object, "<init>", "()V"⟩,
    .slot .aload 0,
    .slot .aload 0,
    .invoke .invokevirtual ⟨l.object, "packageName", "()Ljava/lang/String;"⟩,
    .invoke .invokevirtual ⟨l.object, "importAll", "(Ljava/lang/String;)V"⟩,
    .classRef .new l.context,
    .plain .dup,
    .slot .aload 0,
    .invoke .invokespecial ⟨l.context, "<init>", s!"({l.objectType})V"⟩,
    .slot .astore 1,
    .slot .aload 0,
    .slot .aload 0,
    .invoke .invokevirtual ⟨this, "selfClass", s!"({l.objectType})V"⟩,
    .slot .aload 0,
    .slot .aload 0,
    .slot .aload 1,
    .invoke .invokevirtual ⟨this, "sendMessages", l.scriptDescriptor⟩,
    .plain .pop]

theorem constructor_verified (h : constructor env = .ok m) :
    (m.body.Verified (some env.unit.internal) ∧ m.body.handlers = []) ∧
      ∃ opened, (∀ i ∈ opened, i = .line 0) ∧
        m.body.instructions = opened ++ (constructorCode env ++ [.plain .returnVoid]) := by
  obtain ⟨hfinish, -⟩ := fixedMethod_ok h
  have hfault := (Draft.finishes_of_finish hfinish).fault
  have hsteps : (constructorSteps env).tail.dropLast.mapM Draft.Step.instruction? =
      some (constructorCode env) := rfl
  obtain ⟨opened, hopened, hwrites⟩ := Draft.run_line_writes
    (d := Draft.constructor env.unit.internal [] env.settings.lineNumbers) rfl
    (constructorSteps env).tail.dropLast hfault hsteps
    (by simp [constructorCode, Instruction.endsFlow, Opcode.endsFlow]) rfl
  obtain ⟨hverified, hinstructions⟩ := hwrites.verified ⟨rfl, rfl, rfl, rfl, rfl⟩ hfinish
  exact ⟨hverified, opened, hopened, hinstructions⟩

theorem packageNameMethod_verified (h : packageNameMethod env = .ok m) :
    m.body.Verified none ∧ m.body.handlers = [] := by
  obtain ⟨hfinish, -⟩ := fixedMethod_ok h
  have hfault := (Draft.finishes_of_finish hfinish).fault
  have hwrites := Draft.run_writes (d := env.method [.object env.unit.internal]) rfl
    [.string env.unit.package] hfault rfl (by simp [Instruction.endsFlow]) rfl
  exact (hwrites.verified ⟨rfl, rfl, rfl, rfl, rfl⟩ hfinish).1

theorem importForMethod_verified (h : importForMethod env = .ok m) :
    m.body.Verified none ∧ m.body.handlers = [] := by
  obtain ⟨hfinish, -⟩ := fixedMethod_ok h
  have hfault := (Draft.finishes_of_finish hfinish).fault
  have hwrites := Draft.run_writes
    (d := env.method [.object env.library.object, .object "java/lang/String"]) rfl
    [.load 0,
      .invoke .invokevirtual ⟨env.library.object, "classLoader", s!"()L{env.library.classLoader};"⟩,
      .load 1, .load 0,
      .invoke .invokevirtual ⟨env.library.object, "packageName", "()Ljava/lang/String;"⟩,
      .invoke .invokevirtual ⟨env.library.classLoader, "importForBy",
        "(Ljava/lang/String;Ljava/lang/String;)Ljava/lang/String;"⟩]
    hfault rfl (by simp [Instruction.endsFlow]) rfl
  exact (hwrites.verified ⟨rfl, rfl, rfl, rfl, rfl⟩ hfinish).1

theorem markerConstructor_verified {name : String} {b : MethodBody}
    (h : (markerConstructor env name).finish = .ok b) :
    (b.Verified (some name) ∧ b.handlers = []) ∧ b.instructions = [.slot .aload 0, .slot .aload 1,
      .invoke .invokespecial
        ⟨env.library.blockAnswer, "<init>", s!"({env.library.objectType})V"⟩,
      .plain .returnVoid] := by
  have hfault := (Draft.finishes_of_finish h).fault
  have hwrites := Draft.run_writes
    (d := Draft.constructor name [.object env.library.object]) rfl
    [.load 0, .load 1, .invoke .invokespecial
      ⟨env.library.blockAnswer, "<init>", s!"({env.library.objectType})V"⟩]
    hfault rfl (by simp [Instruction.endsFlow]) rfl
  exact hwrites.verified ⟨rfl, rfl, rfl, rfl, rfl⟩ h

theorem fixedMethods_verified {methods : List Method} (h : fixedMethods env = .ok methods)
    {c : ClassFile} (hc : c.name = env.unit.internal) (hm : m ∈ methods) :
    m.body.Verified (m.constructs c) ∧ m.body.handlers = [] := by
  obtain ⟨construct, hconstruct, hall⟩ := fixedMethods_ok h
  rcases hall m hm with rfl | hpackage | himport
  · rw [Method.constructs, if_pos (fixedMethod_ok hconstruct).2, hc]
    exact (constructor_verified hconstruct).1
  · rw [Method.constructs, if_neg (by rw [(fixedMethod_ok hpackage).2]; decide)]
    exact packageNameMethod_verified hpackage
  · rw [Method.constructs, if_neg (by rw [(fixedMethod_ok himport).2]; decide)]
    exact importForMethod_verified himport

end Fixed

/-- The methods of a script and of its blocks. -/
theorem generated_verified {env : Env} {script : Script} {g : Generated}
    (h : generate env script = .ok g) (c : ClassFile) {m : Method}
    (hm : m ∈ g.sendMessages :: g.blocks) : m.body.Verified (m.constructs c) := by
  have houtlined := generate_outlined env h
  rcases List.mem_cons.1 hm with rfl | hm
  · rw [Method.constructs, if_neg (by rw [houtlined.name]; decide)]
    exact Code.verified_of_finish env houtlined.body
  · obtain ⟨literal, -, i, hcompiled⟩ := houtlined.exists_compiled hm
    have hname : m.name ≠ "<init>" := fun heq =>
      houtlined.unreserved m hm (by rw [heq]; decide)
    rw [Method.constructs, if_neg hname]
    exact Code.verified_of_finish env hcompiled.body

/-- A marker class is made for some block's method. -/
theorem Blocks.exists_of_mem_files {env : Env} {names : Nat → String} {k : Nat}
    {literals : List BlockLiteral} {methods : List Method} {files : List ClassFile}
    (h : Blocks env names k literals methods files) {file : ClassFile} (hfile : file ∈ files) :
    ∃ name span, markerClass env name span = .ok file := by
  induction h with
  | nil k => cases hfile
  | @cons k literal literals method methods first files compiled marked rest ih =>
    rcases List.mem_append.1 hfile with hfile | hfile
    · unfold BlockLiteral.Marked at marked
      split_ifs at marked
      · obtain ⟨file', hfile', rfl⟩ := marked
        rw [List.mem_singleton.1 hfile]
        exact ⟨_, _, hfile'⟩
      · rw [marked] at hfile
        cases hfile
    · exact ih hfile

namespace CompiledUnit.Consists

variable {u : CompiledUnit} {env : Env} {script : Script} {g : Generated} {fixed : List Method}
  (h : u.Consists env script g fixed) {c : CompiledClass}

include h

theorem exists_markerClass (hc : c ∈ u.markers) :
    ∃ name span, markerClass env name span = .ok c.file := by
  apply (generate_outlined env h.generates).blocks.exists_of_mem_files
  rw [← h.markers]
  exact List.mem_map_of_mem hc

/-- The methods of a unit: those of marker classes, those without source text and those of the
script and of its blocks. -/
theorem method_cases (hc : c ∈ u.classes) {m : Method} (hm : m ∈ c.file.methods) :
    (∃ name span, markerClass env name span = .ok c.file) ∨
      c = u.primary ∧ (m ∈ fixed ∨ m ∈ g.sendMessages :: g.blocks) := by
  rcases List.mem_append.1 hc with hc | hc
  · exact .inl (h.exists_markerClass hc)
  · obtain rfl := List.mem_singleton.1 hc
    rw [h.methods] at hm
    exact .inr ⟨rfl, List.mem_append.1 hm⟩

end CompiledUnit.Consists

theorem markerClass_verified {env : Env} {name : String} {span : Span} {file : ClassFile}
    (h : markerClass env name span = .ok file) {m : Method} (hm : m ∈ file.methods) :
    m.body.Verified (m.constructs file) ∧ m.body.handlers = [] := by
  unfold markerClass at h
  split at h
  · cases h
  · rename_i body hbody
    cases h
    rw [List.mem_singleton.1 hm]
    exact (markerConstructor_verified hbody).1

/-- Every method body of every class of a compiled unit is sound: its stack maps hold along all
ways that control can take. -/
theorem compileUnit_sound {settings : Settings} {unit : UnitName} {script : Script}
    {u : CompiledUnit} (h : compileUnit settings unit script = .ok u) :
    ∀ c ∈ u.classes, ∀ m ∈ c.file.methods, m.body.Sound (m.constructs c.file) := by
  obtain ⟨g, fixed, hu⟩ := compileUnit_consists h
  intro c hc m hm
  rcases hu.method_cases hc hm with ⟨name, span, hmarker⟩ | ⟨rfl, hm | hm⟩
  · exact (markerClass_verified hmarker hm).1.sound
  · exact (fixedMethods_verified hu.prepares hu.name hm).1.sound
  · exact (generated_verified hu.generates _ hm).sound

theorem sound_of_sample : ∃ u, compileUnit {} Sample.unit Sample.script = .ok u ∧
    ∀ c ∈ u.classes, ∀ m ∈ c.file.methods, m.body.Sound (m.constructs c.file) := by
  obtain ⟨u, hu⟩ := Sample.compiles
  exact ⟨u, hu, compileUnit_sound hu⟩

section Depth

variable {P : Flow → Instruction → Prop} {frame? : Label → Option (List VerificationType)}
  {this : Option String} {locals : List VerificationType} {place : Nat} {f : Flow}
  {code : List Instruction} {after : Option Flow}

theorem Verifies.next {i : Instruction}
    (h : Verifies P frame? this locals place (some f) (i :: code) after)
    (hends : i.endsFlow = false) :
    ∃ f', i.effect? this place f = some f' ∧
      Verifies P frame? this locals (place + 1) (some f') code after := by
  obtain _ | ⟨passes, rest⟩ := h
  obtain ⟨f', heffect, hafter⟩ := passes.effect
  rw [hafter hends] at rest
  exact ⟨f', heffect, rest⟩

theorem Verifies.skip_lines {number : Nat} {lines : List Instruction}
    (hlines : ∀ i ∈ lines, i = .line number)
    (h : Verifies P frame? this locals place (some f) (lines ++ code) after) :
    ∃ place', Verifies P frame? this locals place' (some f) code after := by
  induction lines generalizing place with
  | nil => exact ⟨place, h⟩
  | cons i lines ih =>
    obtain ⟨rfl, hrest⟩ := List.forall_mem_cons.1 hlines
    obtain ⟨f', heffect, rest⟩ := Verifies.next h rfl
    cases heffect
    exact ih hrest rest

theorem Verifies.load {slot : UInt16}
    (h : Verifies P frame? this locals place (some f) (.slot .aload slot :: code) after) :
    ∃ f', f'.stack.length = f.stack.length + 1 ∧
      Verifies P frame? this locals (place + 1) (some f') code after := by
  obtain ⟨f', heffect, rest⟩ := h.next rfl
  obtain ⟨t, -, rfl⟩ := Option.map_eq_some_iff.1 heffect
  exact ⟨_, rfl, rest⟩

theorem Verifies.store {slot : UInt16}
    (h : Verifies P frame? this locals place (some f) (.slot .astore slot :: code) after) :
    ∃ f', f'.stack.length + 1 = f.stack.length ∧
      Verifies P frame? this locals (place + 1) (some f') code after := by
  obtain ⟨f', heffect, rest⟩ := h.next rfl
  simp only [Instruction.effect?] at heffect
  split at heffect
  · rename_i t stack hstack
    cases heffect
    exact ⟨_, by rw [hstack]; rfl, rest⟩
  · cases heffect

/-- A call takes its parameters and its receiver. -/
theorem Verifies.call {op : Opcode} {method : MemberRef} (hop : op ≠ .invokestatic)
    (h : Verifies P frame? this locals place (some f) (.invoke op method :: code) after) :
    ∃ d f', MethodDescriptor.parse method.descriptor = .ok d ∧
      f'.stack.length + (d.parameters.length + 1) =
        f.stack.length + (if d.result.isSome then 1 else 0) ∧
      d.parameters.length + 1 ≤ f.stack.length ∧
      Verifies P frame? this locals (place + 1) (some f') code after := by
  obtain ⟨f', heffect, rest⟩ := h.next rfl
  obtain ⟨d, f₁, f₂, hd, hdrop, hreceive, rfl⟩ := Instruction.effect?_invoke _ heffect
  have hdropped := Flow.length_drop? hdrop
  have hreceived := Flow.length_receive? hreceive
  rw [if_neg hop] at hreceived
  refine ⟨d, _, hd, ?_, by omega, rest⟩
  rw [Flow.length_pushResult]
  omega

/-- A call by a descriptor that is known. -/
theorem Verifies.call_known {op : Opcode} {method : MemberRef} (hop : op ≠ .invokestatic)
    (h : Verifies P frame? this locals place (some f) (.invoke op method :: code) after)
    {s : Signature} (hs : s.Writes method.descriptor) :
    ∃ f', f'.stack.length + (s.parameters.length + 1) =
        f.stack.length + (if s.result.isSome then 1 else 0) ∧
      Verifies P frame? this locals (place + 1) (some f') code after := by
  obtain ⟨d, f', hparse, hlength, -, rest⟩ := h.call hop
  obtain ⟨hparameters, hresult, -⟩ := Signature.parse hs.1 hs.2 hparse
  rw [hparameters, hresult] at hlength
  exact ⟨f', hlength, rest⟩

end Depth

/-- A descriptor with one object as its parameter. -/
theorem parse_ofObject {l : SupportLibrary} {d : MethodDescriptor}
    (h : MethodDescriptor.parse s!"({l.objectType})V" = .ok d) :
    ')' ∉ l.object.toList ∧ l.object.toList.count ';' + 1 ≤ d.parameters.length ∧
      d.result = none := by
  have htext : (s!"({l.objectType})V").toList =
      '(' :: (('L' :: l.object.toList) ++ ';' :: ')' :: ['V']) := by
    simp [toList_objectType, Parameter.text]
  obtain ⟨hbracket, hcount, hresult⟩ := Descriptor.method_parameters (Descriptor.parse_ok h htext)
  refine ⟨fun hmem => hbracket (List.mem_cons_of_mem _ hmem), ?_, hresult rfl⟩
  rwa [List.count_cons_of_ne (by decide)] at hcount

theorem parse_scriptDescriptor {l : SupportLibrary} {d : MethodDescriptor}
    (h : MethodDescriptor.parse l.scriptDescriptor = .ok d) :
    l.object.toList.count ';' + l.context.toList.count ';' + 2 ≤ d.parameters.length := by
  have htext : l.scriptDescriptor.toList =
      '(' :: (('L' :: (l.object.toList ++ ';' :: 'L' :: l.context.toList)) ++ ';' :: ')' ::
        Parameter.text (.object l.object)) := by
    simp [SupportLibrary.scriptDescriptor, toList_objectType, toList_contextType, Parameter.text]
  obtain ⟨-, hcount, -⟩ := Descriptor.method_parameters (Descriptor.parse_ok h htext)
  rw [List.count_cons_of_ne (by decide), List.count_append, List.count_cons_self,
    List.count_cons_of_ne (by decide)] at hcount
  omega

/-- A constructor leaves nothing on the stack for a parameter that was not meant to be there, so no
class name in its calls holds a second one. -/
theorem readable_of_constructor {env : Env} {m : Method} (h : constructor env = .ok m) :
    env.library.Plain ∧ Legible s!"({env.library.objectType})V" ∧
      Legible env.library.scriptDescriptor := by
  obtain ⟨⟨hverified, -⟩, opened, hopened, hcode⟩ := constructor_verified h
  have hwhole := hverified.code
  rw [hcode] at hwhole
  obtain ⟨place, hcode⟩ := hwhole.skip_lines hopened
  -- Up to the import, the stack is as it should be, whatever the classes are called.
  obtain ⟨f₁, h₁, hcode⟩ := hcode.load
  obtain ⟨f₂, h₂, hcode⟩ := hcode.call_known (by decide) writes_nothing
  obtain ⟨f₃, h₃, hcode⟩ := hcode.load
  obtain ⟨f₄, h₄, hcode⟩ := hcode.load
  obtain ⟨f₅, h₅, hcode⟩ := hcode.call_known (by decide) writes_text
  obtain ⟨f₆, h₆, hcode⟩ := hcode.call_known (by decide) writes_import
  have hsix : f₆.stack.length = 0 := by
    simp only [List.length_nil, List.length_cons, Option.isSome_none, Option.isSome_some,
      Bool.false_eq_true, ↓reduceIte] at h₁ h₂ h₃ h₄ h₅ h₆
    omega
  -- If more than one object were read for the context, there would be nothing to store.
  obtain ⟨f₇, h₇, hcode⟩ := hcode.next rfl
  cases h₇
  obtain ⟨f₈, h₈, hcode⟩ := hcode.next rfl
  cases h₈
  obtain ⟨f₉, h₉, hcode⟩ := hcode.load
  obtain ⟨d, f₁₀, hd, h₁₀, -, hcode⟩ := hcode.call (by decide)
  obtain ⟨f₁₁, h₁₁, hcode⟩ := hcode.store
  obtain ⟨-, hcount, hresult⟩ := parse_ofObject hd
  have hnine : f₉.stack.length = 3 := by simp [h₉, Flow.push, hsix]
  have hone : d.parameters.length = 1 ∧ f₁₁.stack.length = 0 := by
    simp only [hresult, Option.isSome_none, Bool.false_eq_true, ↓reduceIte] at h₁₀
    omega
  -- If more than two objects were read for the script, one would be missing.
  obtain ⟨f₁₂, h₁₂, hcode⟩ := hcode.load
  obtain ⟨f₁₃, h₁₃, hcode⟩ := hcode.load
  obtain ⟨d', f₁₄, hd', h₁₄, -, hcode⟩ := hcode.call (by decide)
  obtain rfl : d = d' := Except.ok.inj (hd.symm.trans hd')
  obtain ⟨f₁₅, h₁₅, hcode⟩ := hcode.load
  obtain ⟨f₁₆, h₁₆, hcode⟩ := hcode.load
  obtain ⟨f₁₇, h₁₇, hcode⟩ := hcode.load
  obtain ⟨e, f₁₈, he, -, h₁₈, -⟩ := hcode.call (by decide)
  have htwo := parse_scriptDescriptor he
  simp only [hresult, Option.isSome_none, Bool.false_eq_true, ↓reduceIte] at h₁₄
  refine ⟨⟨List.count_eq_zero.1 ?_, List.count_eq_zero.1 ?_⟩, ⟨d, hd⟩, e, he⟩ <;> omega

/-- In a unit that compiles, no class name in a descriptor ends early. -/
theorem plain_of_compileUnit {settings : Settings} {unit : UnitName} {script : Script}
    {u : CompiledUnit} (h : compileUnit settings unit script = .ok u) : settings.library.Plain := by
  obtain ⟨g, fixed, hu⟩ := compileUnit_consists h
  obtain ⟨construct, hconstruct, -⟩ := fixedMethods_ok hu.prepares
  exact (readable_of_constructor hconstruct).1

end SmalltalkJvm
