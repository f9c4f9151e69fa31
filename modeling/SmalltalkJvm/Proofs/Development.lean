import SmalltalkJvm.Proofs.Units

/-! # How method bodies develop

Every method body of a compiled unit develops from an empty draft in three kinds of steps: one
instruction where control comes to, the start of a region, and the end of a region with markers.
What these steps preserve holds of every body, whichever class it is in and whether or not source
text stands for it.
-/

namespace SmalltalkJvm

open Compile

def Instruction.IsEmitted : Instruction → Prop
  | plain op => Draft.standsAlone op = true
  | push op value => op = .bipush ∧ -128 ≤ value.toInt ∧ value.toInt ≤ 127 ∨ op = .sipush
  | slot op _ => op = .aload ∨ op = .astore
  | classRef op _ => op = .new ∨ op = .checkcast
  | field op _ => op = .getstatic
  | invoke op member => op = .invokevirtual ∨ op = .invokespecial ∨ op = .invokestatic ∨
      op = .invokeinterface ∧
        ∀ d, MethodDescriptor.parse member.descriptor = .ok d → d.parameterSlots < 255
  | jump op _ => op = .goto
  | constant _ | dynamic _ | mark _ | line _ => True

def Instruction.site? : Instruction → Option CallSite
  | dynamic site => some site
  | _ => none

theorem Opcode.standsAlone_of_iconst? {value : Int} {op : Opcode} (h : iconst? value = some op) :
    Draft.standsAlone op = true := by
  unfold iconst? at h
  split_ifs at h <;> cases h <;> rfl

theorem Draft.isEmitted_intInstruction (value : Int32) : (intInstruction value).IsEmitted := by
  unfold intInstruction
  split
  · rename_i op hop
    exact Opcode.standsAlone_of_iconst? hop
  · split_ifs with hbyte hshort
    · refine .inl ⟨rfl, ?_⟩
      have hvalue : value.toInt16.toInt = value.toInt := by
        rw [Int32.toInt_toInt16]
        exact Int.bmod_eq_of_le (by omega) (by omega)
      rwa [hvalue]
    · exact .inr rfl
    · trivial

theorem Operation.isEmitted_instruction (op : Operation) : op.instruction.IsEmitted := by
  cases op with
  | int value => exact Draft.isEmitted_intInstruction value
  | line | string | invokeDynamic => trivial
  | dup | areturn | discard | getStatic => rfl
  | load => exact .inl rfl
  | invokeVirtual => exact .inl rfl
  | invokeStatic => exact .inr (.inr (.inl rfl))

namespace Draft

/-- A draft that another develops into, with what holds of the single instructions. -/
inductive Develops (env : Env) (P : Instruction → Prop) (d : Draft) : Draft → Prop where
  | refl : Develops env P d d
  | performs {d₁ d₂ : Draft} {i : Instruction} (h : Develops env P d d₁)
      (hr : d₁.reachable = true) (hstraight : i.isStraight = true) (hP : P i)
      (hperforms : d₁.Performs i d₂) : Develops env P d d₂
  | opens {d₁ : Draft} (h : Develops env P d d₁) : Develops env P d d₁.openRegion
  | closes {d₁ d₂ : Draft} {start : Label} {span : Span} {markers : List String}
      (h : Develops env P d d₁) (hm : markers ≠ [])
      (hcloses : Closes env start span markers d₁ d₂) : Develops env P d d₂

variable {env : Env} {P Q : Instruction → Prop}

theorem Develops.trans {d d₁ d₂ : Draft} (h : d.Develops env P d₁) (k : d₁.Develops env P d₂) :
    d.Develops env P d₂ := by
  induction k with
  | refl => exact h
  | performs _ hr hstraight hP hperforms ih => exact .performs ih hr hstraight hP hperforms
  | opens _ ih => exact .opens ih
  | closes _ hm hcloses ih => exact .closes ih hm hcloses

theorem Develops.imp {d d' : Draft} (h : d.Develops env P d') (hPQ : ∀ i, P i → Q i) :
    d.Develops env Q d' := by
  induction h with
  | refl => exact .refl
  | performs _ hr hstraight hP hperforms ih => exact .performs ih hr hstraight (hPQ _ hP) hperforms
  | opens _ ih => exact .opens ih
  | closes _ hm hcloses ih => exact .closes ih hm hcloses

theorem runOperations_develops {d : Draft} {operations : List Operation}
    (hf : (d.runOperations operations).fault = none) :
    d.Develops env Instruction.IsEmitted (d.runOperations operations) :=
  runOperations_induction (R := fun d d' => d.Develops env Instruction.IsEmitted d')
    Instruction.IsEmitted (fun _ => .refl) Develops.trans
    (fun hr h hs _ hi => .performs .refl hr hs hi h) rfl (fun op _ => op.isEmitted_instruction) hf

/-- Running structured code develops a draft. -/
theorem run_develops {c : Code} {d : Draft} (hf : (c.run env d).fault = none) :
    d.Develops env Instruction.IsEmitted (c.run env d) := by
  induction c generalizing d with
  | operations ops => exact runOperations_develops hf
  | append first second ihFirst ihSecond =>
    exact (ihFirst (Code.fault_run env hf)).trans (ihSecond hf)
  | marker name => exact .refl
  | region span body ih =>
    have hbody := (Develops.opens .refl).trans (ih (fault_closeRegion env hf))
    by_cases hm : body.markers = []
    · simp only [Code.run, closeRegion, hm, ↓reduceIte]
      exact hbody
    · exact .closes hbody hm (closeRegion_closes env d.nextLabel span hm hf)
  | statement isLast body ih => exact (ih (fault_run hf)).trans (runOperations_develops hf)

/-- What holds of the instructions of such methods: they create no blocks. -/
def IsSupport (i : Instruction) : Prop := i.IsEmitted ∧ i.site? = none

def Step.isStraight : Step → Bool
  | plain op => standsAlone op
  | invoke op _ => op == .invokevirtual || op == .invokespecial || op == .invokestatic
  | line _ | int _ | string _ | load _ | store _ | create _ | getStatic _ => true
  | _ => false

theorem site?_intInstruction (value : Int32) : (intInstruction value).site? = none := by
  unfold intInstruction
  split
  · rfl
  · split_ifs <;> rfl

theorem Step.isSupport_of_isStraight {s : Step} {i : Instruction} (h : s.isStraight = true)
    (hi : s.instruction? = some i) : IsSupport i := by
  cases s <;> cases hi
  case plain op => exact ⟨h, rfl⟩
  case int value => exact ⟨isEmitted_intInstruction value, site?_intInstruction value⟩
  case string => exact ⟨trivial, rfl⟩
  case load | create => exact ⟨.inl rfl, rfl⟩
  case store => exact ⟨.inr rfl, rfl⟩
  case getStatic => exact ⟨rfl, rfl⟩
  case invoke op method =>
    simp only [isStraight, Bool.or_eq_true, beq_iff_eq] at h
    exact ⟨h.elim (Or.imp_right .inl) fun h => .inr (.inr (.inl h)), rfl⟩
  case invokeDynamic => cases h

theorem step_of_isStraight {d : Draft} {s : Step} (h : s.isStraight = true)
    (hf : (d.step s).fault = none) : d.Develops env IsSupport (d.step s) := by
  cases hr : d.reachable with
  | false =>
    have hsame : d.step s = d := by
      cases s <;> simp_all [Step.isStraight, step, openLine, plain, pushInt, pushString, load,
        store, create, getStatic, invoke]
    rw [hsame]
    exact .refl
  | true =>
    cases hi : s.instruction? with
    | some i =>
      exact .performs .refl hr (isStraight_of_instruction? hi) (s.isSupport_of_isStraight h hi)
        (step_performs hr hi hf)
    | none =>
      obtain ⟨number, rfl⟩ : ∃ number, s = .line number := by
        cases s <;> simp_all [Step.isStraight, Step.instruction?]
      rcases line_performs hr number with hline | hline
      · rw [step, hline]
        exact .refl
      · exact .performs (i := .line number) .refl hr rfl ⟨trivial, rfl⟩ hline

theorem run_straight_develops {d : Draft} {steps : List Step}
    (hsteps : steps.all Step.isStraight = true) (hf : (d.run steps).fault = none) :
    d.Develops env IsSupport (d.run steps) := by
  induction steps generalizing d with
  | nil => exact .refl
  | cons s steps ih =>
    rw [List.all_cons, Bool.and_eq_true] at hsteps
    exact (step_of_isStraight hsteps.1 (fault_run hf)).trans (ih hsteps.2 hf)

structure IsBlank (d : Draft) : Prop where
  code : d.code = #[]
  labels : d.labels = #[]
  handlers : d.handlers = #[]
  stack : d.stack.entries = []
  locals : d.entryLocals.length ≤ 3

theorem isBlank_method {locals : List VerificationType} (h : locals.length ≤ 3) (lines : Bool) :
    (method locals lines).IsBlank := ⟨rfl, rfl, rfl, rfl, h⟩

theorem isBlank_constructor (thisClass : String) {parameters : List VerificationType}
    (h : parameters.length ≤ 2) (lines : Bool) :
    (constructor thisClass parameters lines).IsBlank :=
  ⟨rfl, rfl, rfl, rfl, Nat.succ_le_succ h⟩

end Draft

def MethodBody.Develops (env : Env) (P : Instruction → Prop) (b : MethodBody) : Prop :=
  ∃ start d : Draft, start.IsBlank ∧ start.Develops env P d ∧ d.Finishes b

namespace MethodBody

variable {env : Env} {P Q : Instruction → Prop} {b : MethodBody}

theorem Develops.imp (h : b.Develops env P) (hPQ : ∀ i, P i → Q i) : b.Develops env Q := by
  obtain ⟨start, d, hstart, hdevelops, hfinishes⟩ := h
  exact ⟨start, d, hstart, hdevelops.imp hPQ, hfinishes⟩

theorem develops_of_steps {start : Draft} {steps : List Draft.Step} (hstart : start.IsBlank)
    (hsteps : steps.all Draft.Step.isStraight = true) (h : (start.run steps).finish = .ok b) :
    b.Develops env Draft.IsSupport := by
  have hfinishes := Draft.finishes_of_finish h
  exact ⟨start, _, hstart, Draft.run_straight_develops hsteps hfinishes.fault, hfinishes⟩

theorem develops_of_code {c : Code} {locals : List VerificationType} (hlocals : locals.length ≤ 3)
    (h : (c.run env (env.method locals)).finish = .ok b) :
    b.Develops env Instruction.IsEmitted := by
  have hfinishes := Draft.finishes_of_finish h
  exact ⟨_, _, Draft.isBlank_method hlocals _, Draft.run_develops hfinishes.fault, hfinishes⟩

/-- What holds of the single instructions and of those at both ends of a region holds of all. -/
theorem Develops.forall_mem (h : b.Develops env P) (hP : ∀ i, P i → Q i)
    (hmark : ∀ label, Q (.mark label))
    (hclose : ∀ {span markers d}, ∀ i ∈ Draft.closeCode env span markers d, Q i) :
    ∀ i ∈ b.instructions, Q i := by
  obtain ⟨start, d, hstart, hdevelops, hfinishes⟩ := h
  rw [hfinishes.instructions]
  clear hfinishes
  induction hdevelops with
  | refl => simp [hstart.code]
  | performs _ _ _ hi hperforms ih =>
    rw [hperforms.code, Array.toList_push]
    exact List.forall_mem_append.2 ⟨ih, List.forall_mem_singleton.2 (hP _ hi)⟩
  | opens _ ih =>
    rw [Draft.openRegion_eq, Array.toList_push]
    exact List.forall_mem_append.2 ⟨ih, List.forall_mem_singleton.2 (hmark _)⟩
  | closes _ _ hcloses ih =>
    rw [hcloses.code]
    exact List.forall_mem_append.2 ⟨ih, fun i hi => hclose i hi⟩

theorem isEmitted_closeCode {span : Span} {markers : List String} {d : Draft} :
    ∀ i ∈ Draft.closeCode env span markers d, i.IsEmitted ∧ i.site? = none :=
  Draft.forall_mem_closeCode (fun _ => ⟨trivial, rfl⟩) (fun _ => ⟨rfl, rfl⟩)
    (fun _ => ⟨trivial, rfl⟩) (fun _ => ⟨.inl rfl, rfl⟩) ⟨rfl, rfl⟩

/-- Bodies hold only the forms of instructions that drafts emit. -/
theorem Develops.isEmitted (h : b.Develops env Instruction.IsEmitted) :
    ∀ i ∈ b.instructions, i.IsEmitted :=
  h.forall_mem (fun _ => id) (fun _ => trivial) fun i hi => (isEmitted_closeCode i hi).1

end MethodBody

section Units

variable {env : Env} {m : Method}

theorem fixedMethods_develops {methods : List Method} (h : fixedMethods env = .ok methods)
    (hm : m ∈ methods) : m.body.Develops env Draft.IsSupport := by
  obtain ⟨construct, hconstruct, hall⟩ := fixedMethods_ok h
  rcases hall m hm with rfl | hpackage | himport
  · exact MethodBody.develops_of_steps (Draft.isBlank_constructor _ (by simp) _) rfl
      (fixedMethod_ok hconstruct).1
  · exact MethodBody.develops_of_steps (Draft.isBlank_method (by simp) _) rfl
      (fixedMethod_ok hpackage).1
  · exact MethodBody.develops_of_steps (Draft.isBlank_method (by simp) _) rfl
      (fixedMethod_ok himport).1

theorem generated_develops {script : Script} {g : Generated} (h : generate env script = .ok g)
    (hm : m ∈ g.sendMessages :: g.blocks) : m.body.Develops env Instruction.IsEmitted := by
  have houtlined := generate_outlined env h
  rcases List.mem_cons.1 hm with rfl | hm
  · exact MethodBody.develops_of_code (by simp [Env.scriptLocals]) houtlined.body
  · obtain ⟨literal, -, i, hcompiled⟩ := houtlined.exists_compiled hm
    exact MethodBody.develops_of_code (by simp [Env.blockLocals]) hcompiled.body

theorem markerClass_develops {name : String} {span : Span} {file : ClassFile}
    (h : markerClass env name span = .ok file) (hm : m ∈ file.methods) :
    m.body.Develops env Draft.IsSupport := by
  unfold markerClass at h
  split at h
  · cases h
  · rename_i body hbody
    cases h
    rw [List.mem_singleton.1 hm]
    exact MethodBody.develops_of_steps (Draft.isBlank_constructor _ (by simp) _) rfl hbody

namespace CompiledUnit.Consists

variable {u : CompiledUnit} {script : Script} {g : Generated} {fixed : List Method}
  (hu : u.Consists env script g fixed)

include hu

/-- The methods of marker classes. -/
theorem markers_develop {c : CompiledClass} (hc : c ∈ u.markers) (hm : m ∈ c.file.methods) :
    m.body.Develops env Draft.IsSupport := by
  obtain ⟨name, span, hmarker⟩ := hu.exists_markerClass hc
  exact markerClass_develops hmarker hm

/-- Every method body of a compiled unit develops from a blank draft. -/
theorem develops {c : CompiledClass} (hc : c ∈ u.classes) (hm : m ∈ c.file.methods) :
    m.body.Develops env Instruction.IsEmitted := by
  rcases hu.method_cases hc hm with ⟨name, span, hmarker⟩ | ⟨-, hm | hm⟩
  · exact (markerClass_develops hmarker hm).imp fun i hi => hi.1
  · exact (fixedMethods_develops hu.prepares hm).imp fun i hi => hi.1
  · exact generated_develops hu.generates hm

end CompiledUnit.Consists

end Units

end SmalltalkJvm
