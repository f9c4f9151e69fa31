import SmalltalkJvm.Proofs.FixedTypes
import SmalltalkJvm.Proofs.Visits

/-! # Compiled units are well typed

A unit compiles only if its methods can be finished, and then every descriptor that control comes to
could be read. So nothing has to be supposed of the names of the library's classes: the values that
calls find on the stack have the types that are declared, in the methods of the script and of its
blocks as well as in those without source text, and every return gives what its method declares.
-/

namespace SmalltalkJvm

open Compile

variable {env : Env}

/-- What the constructor of a unit says about the names of the library's classes. -/
theorem legal_of_script (hl : env.library.Plain) (h : Legible env.library.scriptDescriptor) :
    LegalName env.library.object ∧ LegalName env.library.context := by
  obtain ⟨d, hd⟩ := h
  obtain ⟨⟨hparameters, -⟩, -⟩ :=
    (Signature.parse_iff (writes_script hl).1 (writes_script hl).2).1 hd
  obtain ⟨hobject, hcontext⟩ := List.forall_mem_cons.1 hparameters
  have hcontext := List.forall_mem_singleton.1 hcontext
  exact ⟨⟨hobject.1, hl.1, hobject.2⟩, hcontext.1, hl.2, hcontext.2⟩

theorem speaks_of_legal (hl : LegalName env.library.object) (hp : env.library.Plain) :
    env.Speaks :=
  ⟨hp, (writes_fixed env.library).legible ⟨by simp, by
    rintro name ⟨⟩
    exact ⟨hl.1, hl.2.1⟩⟩⟩

section

variable {resolve : String → Resolution} {names : Nat → String}

/-- Statements of which only the last may be an answer run to the end, so their descriptors can be
read. -/
theorem statementsPlan_readable (hl : env.library.Plain) {ss : List Statement}
    (h : env.EscapeFree resolve (ss.flatMap Statement.references))
    (hchecked : statementsChecked env resolve ss) (k : Nat) {d : Draft} (hr : d.reachable = true)
    (hf : ((statementsPlan env resolve ss names k).run env d).fault = none) :
    (statementsPlan env resolve ss names k).All Operation.Readable := by
  induction ss generalizing k d with
  | nil => simp [statementsPlan, Plan.operations, Code.All]
  | cons s rest ih =>
    obtain ⟨hlast, -, hrest⟩ := hchecked
    have hfirst := Code.fault_run env (c := statementsPlan env resolve rest names _) hf
    cases s with
    | expression value =>
      have hstandard := (value.plan_fits env names hl h.left k).standard
      obtain ⟨hvalue, hreached⟩ := Code.readable_of_run env
        (c := (Statement.expression value).plan env resolve rest.isEmpty names k)
        (hstandard.mono fun _ hop => hop.ne_areturn) hr hfirst
      exact ⟨hvalue, ih h.right hrest _ hreached hf⟩
    | answer value span =>
      cases hlast rfl
      have hstandard := (value.plan_fits env names hl h.left (k + 0)).standard
      have hopened : d.openRegion.reachable = true := by rwa [Draft.openRegion_eq]
      have hregion := Draft.fault_run hfirst
      have hvalue := Code.fault_run env (c := .operations [.areturn])
        (Draft.fault_closeRegion env hregion)
      obtain ⟨hread, -⟩ := Code.readable_of_run env
        (c := .append (.operations [.line span.line]) (value.plan env resolve names (k + 0)))
        ⟨List.forall_mem_singleton.2 (by simp), hstandard.mono fun _ hop => hop.ne_areturn⟩ hopened
        hvalue
      exact ⟨⟨hread.1, hread.2, List.forall_mem_singleton.2 trivial⟩,
        by simp [statementsPlan, Plan.operations, Code.All]⟩

theorem Sequence.plan_readable (hl : env.library.Plain) {parameters : List Ident}
    {operations : List Operation} (ho : ∀ op ∈ operations, op ≠ .areturn) {body : Sequence}
    (h : body.EscapeFree env parameters) (hchecked : body.Checked env parameters) (k : Nat)
    {d : Draft} (hr : d.reachable = true)
    (hf : ((body.plan env parameters operations names k).run env d).fault = none) :
    (body.plan env parameters operations names k).All Operation.Readable := by
  obtain ⟨temporaries, ss, span⟩ := body
  have hbody := Code.fault_run env (c := .operations [.areturn]) hf
  have hdeclare := Code.fault_run env hbody
  obtain ⟨hdeclarations, hreached⟩ := readable_of_runOperations
    (fun op hop => (Operation.standard_declarations env temporaries op hop).ne_areturn) hr hdeclare
  refine ⟨hdeclarations, ?_, List.forall_mem_singleton.2 trivial⟩
  cases ss with
  | nil =>
    exact (readable_of_runOperations (List.forall_mem_cons.2 ⟨by simp, ho⟩) hreached hbody).1
  | cons first others => exact statementsPlan_readable hl h hchecked _ hreached hbody

end

/-- The method of a sequence is verified with the types that are asked for. -/
theorem typed_of_finish (hspeaks : env.Speaks) {locals : List VerificationType}
    (hframe : env.Frame locals) {operations : List Operation}
    (ho : ∀ op ∈ operations, op ≠ .areturn)
    (hempty : (∀ op ∈ operations, op.Readable) →
      Operation.TurnAll env.Typed locals operations [] [env.value])
    {parameters : List Ident} {body : Sequence} (h : body.EscapeFree env parameters)
    (hchecked : body.Checked env parameters) {names : Nat → String} {k : Nat} {b : MethodBody}
    (hb : ((body.plan env parameters operations names k).run env (env.method locals)).finish =
      .ok b) : b.Verified none env.Typed := by
  have hfault := (Draft.finishes_of_finish hb).fault
  have hreadable := body.plan_readable hspeaks.plain ho h hchecked k rfl hfault
  obtain ⟨b', hb', hverified⟩ := (Sequence.plan_stops hframe hspeaks hempty h hchecked k
    hreadable).finish env.settings.lineNumbers
  cases hb.symm.trans hb'
  exact hverified

theorem writes_blockMethod {l : SupportLibrary} (hl : l.Plain) :
    Signature.Writes ⟨[.object l.object, .object l.object, .object l.context], some l.object⟩
      l.blockDescriptor := by
  refine ⟨?_, ?_⟩
  · simpa [Signature.Plain, Parameter.Plain, SupportLibrary.Plain] using hl
  · simp [SupportLibrary.blockDescriptor, toList_objectType, toList_contextType, Signature.text,
      Signature.resultText, Parameter.text]

/-- The methods of a script and of its blocks. -/
theorem generated_typed {script : Script} {g : Generated} (h : generate env script = .ok g)
    (hfree : script.EscapeFree env) (hl : env.library.Plain)
    (hscript : Legible env.library.scriptDescriptor) (c : ClassFile) {m : Method}
    (hm : m ∈ g.sendMessages :: g.blocks) : m.WellTyped env c := by
  obtain ⟨hobject, hcontext⟩ := legal_of_script hl hscript
  have hspeaks := speaks_of_legal hobject hl
  have houtlined := generate_outlined env h
  have hchecked := generate_checked env h
  rcases List.mem_cons.1 hm with rfl | hm
  · refine ⟨_, by rw [houtlined.descriptor]; exact (writes_script hl).parse hscript, ?_⟩
    rw [Method.constructs, if_neg (by rw [houtlined.name]; decide)]
    exact typed_of_finish hspeaks env.frame_script (by simp)
      (fun _ => Operation.turnAll_self env.frame_script []) hfree.1 hchecked houtlined.body
  · obtain ⟨literal, hliteral, i, hcompiled⟩ := houtlined.exists_compiled hm
    have hname : m.name ≠ "<init>" := fun heq =>
      houtlined.unreserved m hm (by rw [heq]; decide)
    have hlegible : Legible env.library.blockDescriptor := by
      refine (writes_blockMethod hl).legible ⟨?_, ?_⟩
      · simp [Parameter.Legal, hobject.1, hobject.2.2, hcontext.1, hcontext.2.2]
      · rintro name ⟨⟩
        exact ⟨hobject.1, hobject.2.1⟩
    refine ⟨_, by rw [hcompiled.descriptor]; exact (writes_blockMethod hl).parse hlegible, ?_⟩
    rw [Method.constructs, if_neg hname]
    exact typed_of_finish hspeaks env.frame_block
      (fun op hop => (Operation.standard_fixed env "referenceNil" op hop).ne_areturn)
      (Operation.turnAll_fixed env.frame_block []) (hfree.2 _ hliteral)
      (generate_checked_blocks env h _ hliteral) hcompiled.body

theorem markerClass_typed (hl : env.library.Plain)
    (hobject : Legible s!"({env.library.objectType})V") {name : String} {span : Span}
    {file : ClassFile} (h : markerClass env name span = .ok file) {m : Method}
    (hm : m ∈ file.methods) : m.WellTyped env file := by
  obtain ⟨b, hb, hverified⟩ := markerConstructor_typed hl hobject name
  rw [markerClass, hb] at h
  cases h
  rw [List.mem_singleton.1 hm]
  exact ⟨_, (writes_takeObject hl).parse hobject, hverified⟩

/-- Whatever way control takes through a well typed method, its instructions find what they ask
for. -/
theorem Method.WellTyped.arrives {c : ClassFile} {m : Method} (h : m.WellTyped env c) :
    ∃ d, MethodDescriptor.parse m.descriptor = .ok d ∧ ∀ {place : Nat} {f : Flow} {i : Instruction},
      m.body.Arrives (m.constructs c) place f → m.body.instructions[place]? = some i →
        i.WellTyped env d.result f := by
  obtain ⟨d, hd, hverified⟩ := h
  refine ⟨d, hd, fun {place f i} harrives hi => ?_⟩
  cases hs : i.isStraight with
  | true => exact hverified.holds harrives hi hs
  | false =>
    cases i with
    | mark | jump => trivial
    | _ => cases hs

theorem CompiledUnit.Consists.typed {u : CompiledUnit} {script : Script} {g : Generated}
    {fixed : List Method} (h : u.Consists env script g fixed) (hfree : script.EscapeFree env) :
    ∀ c ∈ u.classes, ∀ m ∈ c.file.methods, m.WellTyped env c.file := by
  obtain ⟨construct, hconstruct, -⟩ := fixedMethods_ok h.prepares
  obtain ⟨hl, hobject, hscript⟩ := readable_of_constructor hconstruct
  intro c hc m hm
  rcases h.method_cases hc hm with ⟨name, span, hmarker⟩ | ⟨rfl, hm | hm⟩
  · exact markerClass_typed hl hobject hmarker hm
  · exact fixedMethods_typed h.prepares h.name hm
  · exact generated_typed h.generates hfree hl hscript _ hm

/-- In a script that compiles, every expression and every block adds one value of the support
library to the stack, wherever it is compiled, and control goes on from it. In every method of the
unit, whatever way control takes, calls find values that may stand for their receivers and
parameters, and returns give what the method declares. -/
theorem compileUnit_types {settings : Settings} {unit : UnitName} {script : Script}
    {u : CompiledUnit} (h : compileUnit settings unit script = .ok u)
    (hfree : script.EscapeFree ⟨settings, unit⟩) :
    (∀ e s, script.Reaches ⟨settings, unit⟩ (.expression e) s →
      ∃ r s', receiver ⟨settings, unit⟩ e s = .ok r s' ∧
        s'.current.draft.stack.entries =
          .object settings.library.object :: s.current.draft.stack.entries ∧
        s'.current.draft.reachable = true) ∧
    (∀ literal s, script.Reaches ⟨settings, unit⟩ (.block literal) s →
      ∃ s', (Task.block literal).run ⟨settings, unit⟩ s = .ok () s' ∧
        s'.current.draft.stack.entries =
          .object settings.library.object :: s.current.draft.stack.entries ∧
        s'.current.draft.reachable = true) ∧
    ∀ c ∈ u.classes, ∀ m ∈ c.file.methods, m.WellTyped ⟨settings, unit⟩ c.file ∧
      ∃ d, MethodDescriptor.parse m.descriptor = .ok d ∧
        ∀ {place : Nat} {f : Flow} {i : Instruction},
          m.body.Arrives (m.constructs c.file) place f → m.body.instructions[place]? = some i →
            i.WellTyped ⟨settings, unit⟩ d.result f := by
  obtain ⟨g, fixed, hu⟩ := compileUnit_consists h
  obtain ⟨construct, hconstruct, -⟩ := fixedMethods_ok hu.prepares
  obtain ⟨hl, hobject, hscript⟩ := readable_of_constructor hconstruct
  have hspeaks := speaks_of_legal (legal_of_script hl hscript).1 hl
  refine ⟨fun e s hreach => ?_, fun literal s hreach => ?_, fun c hc m hm => ?_⟩
  · obtain ⟨s', stack, hrun, hbefore, hafter, hreached⟩ :=
      hreach.leaves hspeaks hfree hu.generates (by simp)
    obtain ⟨r, hr⟩ := run_expression.1 hrun
    exact ⟨r, s', hr, by rw [hafter, hbefore]; rfl, hreached⟩
  · obtain ⟨s', stack, hrun, hbefore, hafter, hreached⟩ :=
      hreach.leaves hspeaks hfree hu.generates (by simp)
    exact ⟨s', hrun, by rw [hafter, hbefore]; rfl, hreached⟩
  · have htyped := hu.typed hfree c hc m hm
    exact ⟨htyped, htyped.arrives⟩

theorem types_of_sample : ∃ u, compileUnit {} Sample.unit Sample.script = .ok u ∧
    Sample.script.EscapeFree Sample.env ∧
    (∃ s, Sample.script.Reaches Sample.env (.expression Sample.outer) s ∧
      ∃ r s', receiver Sample.env Sample.outer s = .ok r s' ∧
        s'.current.draft.stack.entries =
          .object Sample.env.library.object :: s.current.draft.stack.entries) ∧
    ∀ c ∈ u.classes, ∀ m ∈ c.file.methods, m.WellTyped Sample.env c.file := by
  obtain ⟨u, hu⟩ := Sample.compiles
  obtain ⟨hexpressions, -, hmethods⟩ := compileUnit_types hu Sample.escapeFree
  have hstart : Sample.script.Reaches Sample.env _ _ := .start (List.cons_ne_nil _ _) rfl
  have hreaches := hstart.call (.statement rfl)
  obtain ⟨r, s', hr, hentries, -⟩ := hexpressions _ _ hreaches
  exact ⟨u, hu, Sample.escapeFree, ⟨_, hreaches, r, s', hr, hentries⟩,
    fun c hc m hm => (hmethods c hc m hm).1⟩

end SmalltalkJvm
