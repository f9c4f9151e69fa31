import SmalltalkJvm.Proofs.Assembly
import SmalltalkJvm.Proofs.Development
import SmalltalkJvm.Proofs.Wiring

/-! # Where blocks are made into objects

A block becomes an object at a call site of its own. The call sites of a method are those of the
blocks that its sequence directly contains, in their order, and over all methods of a class each
block of the script has one. No other code has call sites: not the regions around it, nor the
methods that no source text stands for.
-/

namespace SmalltalkJvm

open Compile

def Operation.site? : Operation → Option CallSite
  | invokeDynamic site => some site
  | _ => none

theorem Operation.site?_instruction (op : Operation) : op.instruction.site? = op.site? := by
  cases op <;> try rfl
  case int value => exact Draft.site?_intInstruction value

def Code.callSites : Code → List CallSite
  | operations ops => ops.filterMap Operation.site?
  | append first second => first.callSites ++ second.callSites
  | marker _ => []
  | region _ body | statement _ body => body.callSites

def Draft.callSites (d : Draft) : List CallSite := d.code.toList.filterMap Instruction.site?

namespace Draft

variable {env : Env}

theorem Performs.callSites_eq {d d' : Draft} {i : Instruction} (h : d.Performs i d') :
    d'.callSites = d.callSites ++ i.site?.toList := by
  cases hi : i.site? <;> simp [callSites, h.code, hi]

/-- Operations up to the first return have their call sites. -/
theorem callSites_runOperations {d : Draft} {operations : List Operation}
    (hops : ∀ op ∈ operations, op ≠ .areturn) (hr : d.reachable = true)
    (hf : (d.runOperations operations).fault = none) :
    (d.runOperations operations).callSites =
      d.callSites ++ operations.filterMap Operation.site? := by
  induction operations generalizing d with
  | nil => simp [runOperations]
  | cons op operations ih =>
    obtain ⟨hop, hops⟩ := List.forall_mem_cons.1 hops
    have hfirst : (d.step op.step).fault = none := fault_run hf
    have hreach := (Operation.readable_of_step hr hfirst).2 hop
    have hstep : (d.step op.step).callSites = d.callSites ++ op.site?.toList := by
      rcases step_operation hr op hfirst with ⟨h, number, rfl⟩ | h | ⟨rfl, h, -⟩
      · rw [h]
        simp [Operation.site?]
      · rw [h.callSites_eq, op.site?_instruction]
      · rw [h.callSites_eq]
        rfl
    change ((d.step op.step).runOperations operations).callSites = _
    rw [ih hops hreach hf, hstep, List.append_assoc]
    cases hsite : op.site? <;> simp [hsite]

/-- Operations without call sites have none, whether or not control comes to them. -/
theorem callSites_runOperations_of_nil {d : Draft} {operations : List Operation}
    (hnone : operations.filterMap Operation.site? = [])
    (hf : (d.runOperations operations).fault = none) :
    (d.runOperations operations).callSites = d.callSites :=
  runOperations_induction (R := fun d d' => d'.callSites = d.callSites) (fun i => i.site? = none)
    (fun _ => rfl) (fun h k => k.trans h) (fun _ h _ _ hi => by simp [h.callSites_eq, hi]) rfl
    (fun op hop => op.site?_instruction.trans (List.filterMap_eq_nil_iff.1 hnone op hop)) hf

theorem callSites_openRegion (d : Draft) : d.openRegion.callSites = d.callSites := by
  simp [callSites, openRegion_eq, Instruction.site?]

/-- Leaving a region needs no call site. -/
theorem callSites_closeRegion {d : Draft} {start : Label} {span : Span} {markers : List String}
    (hf : (d.closeRegion env start span markers).fault = none) :
    (d.closeRegion env start span markers).callSites = d.callSites := by
  by_cases hm : markers = []
  · simp [closeRegion, hm]
  · have hclosing : (closeCode env span markers d).filterMap Instruction.site? = [] :=
      List.filterMap_eq_nil_iff.2 fun i hi => (MethodBody.isEmitted_closeCode i hi).2
    rw [callSites, (closeRegion_closes env start span hm hf).code, ← closeCode,
      List.filterMap_append, hclosing, List.append_nil]
    rfl

theorem callSites_settle {d : Draft} {isLast : Bool} {base : Nat}
    (hf : (d.settle env isLast base).fault = none) :
    (d.settle env isLast base).callSites = d.callSites := by
  refine callSites_runOperations_of_nil ?_ hf
  unfold settling
  split_ifs
  · rfl
  · rfl
  · exact List.filterMap_eq_nil_iff.2 fun op hop => by rw [List.eq_of_mem_replicate hop]; rfl

end Draft

namespace Code

open Draft

variable {env : Env}

theorem callSites_run_of_nil {c : Code} {d : Draft} (hnone : c.callSites = [])
    (hf : (c.run env d).fault = none) : (c.run env d).callSites = d.callSites := by
  induction c generalizing d with
  | operations ops => exact callSites_runOperations_of_nil hnone hf
  | append first second ihFirst ihSecond =>
    obtain ⟨hfirst, hsecond⟩ := List.append_eq_nil_iff.1 hnone
    exact (ihSecond hsecond hf).trans (ihFirst hfirst (fault_run env hf))
  | marker name => rfl
  | region span body ih =>
    rw [run, callSites_closeRegion hf, ih hnone (fault_closeRegion env hf), callSites_openRegion]
  | statement isLast body ih =>
    rw [run, callSites_settle hf, ih hnone (Draft.fault_run hf)]

/-- Code in which no call site comes after a return. -/
def Lives : Code → Prop
  | operations ops => (∀ op ∈ ops, op ≠ .areturn) ∨ ops.filterMap Operation.site? = []
  | append first second => first.Lives ∧ second.Lives ∧ (first.Runs ∨ second.callSites = [])
  | marker _ => True
  | region _ body | statement _ body => body.Lives

theorem Runs.lives {c : Code} (h : c.Runs) : c.Lives := by
  induction c with
  | operations ops => exact .inl h
  | append first second ihFirst ihSecond => exact ⟨ihFirst h.1, ihSecond h.2, .inl h.1⟩
  | marker name => trivial
  | region span body ih => exact ih h
  | statement isLast body ih => exact ih h

/-- Where control comes to code, all its call sites are emitted. -/
theorem callSites_run {c : Code} {d : Draft} (hlives : c.Lives) (hr : d.reachable = true)
    (hf : (c.run env d).fault = none) :
    (c.run env d).callSites = d.callSites ++ c.callSites := by
  induction c generalizing d with
  | operations ops =>
    rcases hlives with hops | hnone
    · exact callSites_runOperations hops hr hf
    · rw [callSites, hnone, List.append_nil]
      exact callSites_runOperations_of_nil hnone hf
  | append first second ihFirst ihSecond =>
    obtain ⟨hfirst, hsecond, hbetween⟩ := hlives
    have hf₁ : (first.run env d).fault = none := fault_run env hf
    rw [callSites, ← List.append_assoc, ← ihFirst hfirst hr hf₁]
    rcases hbetween with hruns | hnone
    · exact ihSecond hsecond (readable_of_run env hruns hr hf₁).2 hf
    · rw [hnone, List.append_nil]
      exact callSites_run_of_nil hnone hf
  | marker name => exact (List.append_nil _).symm
  | region span body ih =>
    have hopened : d.openRegion.reachable = true := by rwa [openRegion_eq]
    rw [run, callSites_closeRegion hf, ih hlives hopened (fault_closeRegion env hf),
      callSites_openRegion]
    rfl
  | statement isLast body ih =>
    rw [run, callSites_settle hf, ih hlives hr (Draft.fault_run hf)]
    rfl

end Code

section

variable (env : Env)

namespace Operation

theorem callSites_literal (kind : LiteralKind) (text : String) (number : Nat) :
    (line number :: literal env kind text).filterMap site? = [] := rfl

theorem callSites_pseudo (word : Pseudo) (number : Nat) :
    (line number :: pseudo env word).filterMap site? = [] := by
  cases word <;> rfl

theorem callSites_reference (name : String) (resolution : Resolution) (number : Nat) :
    (line number :: reference env name resolution).filterMap site? = [] := by
  cases resolution <;> rfl

theorem callSites_dispatch (selector : String) (arity : Nat) (r : Receiver) (span : Span) :
    (dispatch env selector arity r span).filterMap site? = [] := rfl

theorem callSites_directive (kind : Directive) (arguments : List String) :
    (directive env kind arguments).filterMap site? = [] := by
  unfold directive
  split
  case h_1 text | h_2 text | h_6 text => cases index? text <;> rfl
  all_goals rfl

theorem callSites_escape (parts : List KeywordPart) (span : Span) :
    (escape env parts span).filterMap site? = [] := by
  unfold escape
  split
  · exact callSites_directive env _ _
  · rfl

theorem callSites_declarations (temporaries : List Ident) :
    (declarations env temporaries).filterMap site? = [] := by
  cases temporaries <;> rfl

theorem callSites_block (b : BlockLiteral) (name : String) :
    (block env b name).filterMap site? = [blockSite env name] := by
  unfold block
  split <;> rfl

end Operation

/-- The call sites of some blocks, whose methods have the names given. -/
def siteCalls (names : Nat → String) (sites : List Site) : List CallSite :=
  sites.map fun s => blockSite env (names s.number)

/-- Code makes objects of some blocks, in their order. -/
def Code.Makes (names : Nat → String) (code : Code) (sites : List Site) : Prop :=
  code.callSites = siteCalls env names sites

variable {env} {resolve : String → Resolution} {names : Nat → String}

theorem Code.Makes.operations {operations : List Operation}
    (h : operations.filterMap Operation.site? = []) :
    (Code.operations operations).Makes env names [] := h

theorem Code.Makes.append {first second : Code} {p q : List Site} (h₁ : first.Makes env names p)
    (h₂ : second.Makes env names q) : (first.append second).Makes env names (p ++ q) := by
  rw [Makes, siteCalls, List.map_append]
  exact congrArg₂ _ h₁ h₂

theorem Code.Makes.andOperations {first : Code} {sites : List Site}
    (h : first.Makes env names sites) {operations : List Operation}
    (hops : operations.filterMap Operation.site? = []) :
    (first.append (.operations operations)).Makes env names sites := by
  have happend := h.append (.operations hops)
  rwa [List.append_nil] at happend

theorem Plan.region_makes {wanted : Bool} {span : Span} {body : Plan} {k : Nat} {sites : List Site}
    (h : (body names k).Makes env names sites) :
    (Plan.region wanted span body names k).Makes env names sites := by
  cases wanted <;> exact h

theorem BlockLiteral.plan_makes (literal : BlockLiteral) (c : Catcher) (k : Nat) :
    (literal.plan env names k).Makes env names
      [⟨k + (literal.body.blocks env).length, literal, c⟩] := by
  rw [Code.Makes, BlockLiteral.plan, Code.callSites, Code.callSites, Operation.callSites_block]
  split_ifs <;> rfl

mutual

theorem Expr.plan_makes (e : Expr) (h : e.Checked env resolve) (c : Catcher) (k : Nat) :
    (e.plan env resolve names k).Makes env names (e.sites env c k) := by
  cases e with
  | literal kind text span => exact .operations (Operation.callSites_literal env kind text _)
  | pseudo word span => exact .operations (Operation.callSites_pseudo env word _)
  | reference name span =>
    rw [Expr.plan]
    split_ifs
    · exact .operations rfl
    · exact .operations (Operation.callSites_reference env name _ _)
  | primitive => exact .operations rfl
  | block parameters body span => exact BlockLiteral.plan_makes _ c k
  | send target m span =>
    exact Plan.region_makes ((target.plan_makes h.1 _ k).append (m.plan_makes h.2 _ _))
  | cascade target messages span =>
    exact (target.plan_makes h.1 _ k).append (cascadePlan_makes target messages h.2 c _)
  | assign target value span =>
    refine (value.plan_makes h c k).andOperations ?_
    cases resolve target.name <;> rfl
  | paren inner span => exact inner.plan_makes h c k

theorem Message.plan_makes (m : Message) {r : Receiver} (h : m.Checked env resolve r)
    (c : Catcher) (k : Nat) :
    (m.plan env resolve r names k).Makes env names (m.sites env c k) := by
  cases m with
  | unary selector => exact .operations (Operation.callSites_dispatch env _ _ _ _)
  | binary selector argument span =>
    exact (argument.plan_makes h c k).andOperations (Operation.callSites_dispatch env _ _ _ _)
  | keyword parts span =>
    rw [Message.plan]
    split_ifs with hr
    · rw [Message.sites, argumentSites_eq_nil (h.1 hr)]
      exact .operations (Operation.callSites_escape env parts span)
    · exact (argumentsPlan_makes parts (h.2 hr) c k).andOperations
        (Operation.callSites_dispatch env _ _ _ _)

theorem cascadePlan_makes (target : Expr) (messages : List Message)
    (h : messagesChecked env resolve (target.asReceiver env resolve) messages) (c : Catcher)
    (k : Nat) :
    (cascadePlan env resolve (target.asReceiver env resolve) messages names k).Makes env names
      (messageSites env target c k messages) := by
  cases messages with
  | nil => exact .operations rfl
  | cons m rest =>
    have hrest := cascadePlan_makes target rest h.2 c (k + (m.blocks env).length)
    rw [cascadePlan]
    split_ifs with hr
    · exact (m.plan_makes h.1 _ k).append hrest
    all_goals
      exact Code.Makes.append (p := []) (.operations rfl)
        ((Plan.region_makes (m.plan_makes h.1 _ k)).append
          (Code.Makes.append (p := []) (.operations rfl) hrest))

theorem argumentsPlan_makes (parts : List KeywordPart) (h : argumentsChecked env resolve parts)
    (c : Catcher) (k : Nat) :
    (argumentsPlan env resolve parts names k).Makes env names (argumentSites env c k parts) := by
  cases parts with
  | nil => exact .operations rfl
  | cons part rest =>
    obtain ⟨keyword, argument⟩ := part
    have hargument : (argument.plan env resolve names k).Makes env names
        (argument.sites env c k) := argument.plan_makes h.1 c k
    cases argument with
    | block parameters body span =>
      exact (BlockLiteral.plan_makes _ c k).append (argumentsPlan_makes rest h.2 c _)
    | _ => exact hargument.append (argumentsPlan_makes rest h.2 c _)

end

theorem Statement.plan_makes (s : Statement) (h : s.Checked env resolve) (isLast : Bool)
    (k : Nat) : (s.plan env resolve isLast names k).Makes env names (s.sites env k) := by
  cases s with
  | expression value => exact value.plan_makes h (.expression k value) k
  | answer value span =>
    exact Code.Makes.append (p := []) (.operations rfl)
      ((value.plan_makes h (.answer k value span) k).andOperations rfl)

theorem statementsPlan_makes {ss : List Statement} (h : statementsChecked env resolve ss)
    (k : Nat) :
    (statementsPlan env resolve ss names k).Makes env names (statementSites env k ss) := by
  induction ss generalizing k with
  | nil => exact .operations rfl
  | cons s rest ih => exact (s.plan_makes h.2.1 _ k).append (ih h.2.2 _)

/-- An answer is the last statement, so no call site comes after it. -/
theorem statementsPlan_lives {ss : List Statement} (h : statementsChecked env resolve ss)
    (k : Nat) : (statementsPlan env resolve ss names k).Lives := by
  induction ss generalizing k with
  | nil => exact .inr rfl
  | cons s rest ih =>
    refine ⟨?_, ih h.2.2 _, ?_⟩
    · cases s with
      | expression value => exact (value.plan_runs env resolve names k).lives
      | answer value span =>
        exact ⟨.inr rfl, ⟨(value.plan_runs env resolve names k).lives, .inr rfl,
          .inr rfl⟩, .inl (by simp [Plan.operations, Code.Runs, Code.All])⟩
    · cases s with
      | expression value => exact .inl (value.plan_runs env resolve names k)
      | answer value span =>
        obtain rfl := h.1 rfl
        exact .inr rfl

/-- The call sites of a method: one for each block that its sequence directly contains. -/
theorem Sequence.callSites_eq {s : Sequence} {parameters : List Ident}
    (h : s.Checked env parameters) {whenEmpty : List Operation}
    (hempty : whenEmpty.filterMap Operation.site? = []) {k : Nat}
    {locals : List VerificationType} {b : MethodBody}
    (hfinish : ((s.plan env parameters whenEmpty names k).run env (env.method locals)).finish =
      .ok b) :
    b.instructions.filterMap Instruction.site? = siteCalls env names (s.sites env k) := by
  have hfinishes := Draft.finishes_of_finish hfinish
  have hdeclares := Operation.callSites_declarations env s.temporaries
  have hruns : (Code.operations (Operation.declarations env s.temporaries)).Runs := fun op hop =>
    (Operation.standard_declarations env s.temporaries op hop).ne_areturn
  obtain ⟨body, hbody⟩ : ∃ body, body =
      (if s.statements.isEmpty then Plan.operations (.line s.span.line :: whenEmpty)
        else statementsPlan env (lookup parameters s.temporaries) s.statements) names k := ⟨_, rfl⟩
  have hplan : s.plan env parameters whenEmpty names k =
      .append (.operations (Operation.declarations env s.temporaries))
        (.append body (.operations [.areturn])) := by
    rw [hbody]
    rfl
  have hsites : body.Lives ∧ body.callSites = siteCalls env names (s.sites env k) := by
    obtain ⟨temporaries, ss, span⟩ := s
    cases ss with
    | nil =>
      rw [hbody]
      exact ⟨.inr hempty, hempty⟩
    | cons statement rest =>
      rw [hbody]
      exact ⟨statementsPlan_lives h k, statementsPlan_makes h k⟩
  have hlives : (s.plan env parameters whenEmpty names k).Lives := by
    rw [hplan]
    exact ⟨.inr hdeclares, ⟨hsites.1, .inr rfl, .inr rfl⟩, .inl hruns⟩
  have hrun := Code.callSites_run hlives rfl hfinishes.fault
  rw [hfinishes.instructions]
  refine hrun.trans ?_
  rw [hplan, Code.callSites, Code.callSites, Code.callSites, Code.callSites, hdeclares, hsites.2]
  simp [Draft.callSites, Env.method, Draft.method, Operation.site?]

end

def ClassFile.callSites (c : ClassFile) : List CallSite :=
  c.instructions.filterMap Instruction.site?

section

variable {env : Env} {script : Script} {g : Generated}

/-- A block's method has the call sites of the blocks that the block directly contains. -/
theorem BlockLiteral.Compiled.callSites_eq {names : Nat → String} {literal : BlockLiteral} {i : Nat}
    {method : Method} (h : literal.Compiled env names i method)
    (hchecked : literal.body.Checked env literal.parameters) :
    method.body.instructions.filterMap Instruction.site? =
      siteCalls env names (literal.body.sites env (i - (literal.body.blocks env).length)) :=
  Sequence.callSites_eq hchecked rfl h.body

theorem script_callSites (h : generate env script = .ok g) :
    g.sendMessages.body.instructions.filterMap Instruction.site? =
      siteCalls env g.names (script.body.sites env 0) :=
  Sequence.callSites_eq (generate_checked env h) rfl (generate_outlined env h).body

theorem Blocks.callSites_eq {names : Nat → String} {k : Nat} {literals : List BlockLiteral}
    {methods : List Method} {files : List ClassFile} (h : Blocks env names k literals methods files)
    (hchecked : ∀ literal ∈ literals, literal.body.Checked env literal.parameters) :
    (methods.flatMap (·.body.instructions)).filterMap Instruction.site? =
      (innerEntries env k literals).map fun x => blockSite env (names x.2) := by
  induction h with
  | nil k => rfl
  | cons compiled marked rest ih =>
    obtain ⟨hfirst, hrest⟩ := List.forall_mem_cons.1 hchecked
    rw [List.flatMap_cons, List.filterMap_append, ih hrest, compiled.callSites_eq hfirst,
      innerEntries_cons, List.map_append, List.map_map]
    rfl

theorem MethodBody.Develops.callSites_eq {b : MethodBody} (h : b.Develops env Draft.IsSupport) :
    b.instructions.filterMap Instruction.site? = [] :=
  List.filterMap_eq_nil_iff.2 (h.forall_mem (fun _ hi => hi.2) (fun _ => rfl)
    fun i hi => (MethodBody.isEmitted_closeCode i hi).2)

namespace CompiledUnit.Consists

variable {u : CompiledUnit} {fixed : List Method} (hu : u.Consists env script g fixed)

include hu

theorem callSites_markers {c : CompiledClass} (hc : c ∈ u.markers) : c.file.callSites = [] := by
  rw [ClassFile.callSites, ClassFile.instructions, List.filterMap_flatMap]
  exact List.flatMap_eq_nil_iff.2 fun m hm => (hu.markers_develop hc hm).callSites_eq

/-- The call sites of the primary class are those of the blocks of the script, each of them once. -/
theorem callSites_primary :
    u.primary.file.callSites.Perm (g.blocks.map fun m => blockSite env m.name) := by
  have hchecked := generate_checked env hu.generates
  have hblocks := (generate_outlined env hu.generates).blocks
  have hfixed : (fixed.flatMap (·.body.instructions)).filterMap Instruction.site? = [] := by
    rw [List.filterMap_flatMap]
    exact List.flatMap_eq_nil_iff.2 fun m hm => (fixedMethods_develops hu.prepares hm).callSites_eq
  have hnames : (g.blocks.map fun m => blockSite env m.name) =
      (script.body.blocks env).zipIdx.map fun x => blockSite env (g.names x.2) := by
    have heq := congrArg (List.map (blockSite env)) hblocks.names_eq
    rwa [List.map_map, List.map_map] at heq
  have hall : u.primary.file.callSites =
      ((script.body.sites env 0).map Site.entry ++ innerEntries env 0 (script.body.blocks env)).map
        fun x => blockSite env (g.names x.2) := by
    rw [ClassFile.callSites, ClassFile.instructions, hu.methods, List.flatMap_append,
      List.flatMap_cons, List.filterMap_append, List.filterMap_append, hfixed, List.nil_append,
      script_callSites hu.generates, hblocks.callSites_eq
        (generate_checked_blocks env hu.generates),
      List.map_append, List.map_map]
    rfl
  rw [hall, hnames]
  exact (script.body.covers env 0).map _

end CompiledUnit.Consists

end

end SmalltalkJvm
