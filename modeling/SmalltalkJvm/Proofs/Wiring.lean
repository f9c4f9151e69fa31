import SmalltalkJvm.Proofs.Catching
import SmalltalkJvm.Proofs.Units

/-! # Answers come back to the method that created the block

A block that answers from the method that created it has a class of exceptions of its own, its
marker. In a compiled unit the marker is caught by one exception entry. That entry stands in the
method that creates the block, its range is the code of the innermost construct that catches
answers there, and its handler returns what the exception carries.
-/

namespace SmalltalkJvm

open Compile

section

variable (env : Env) (resolve : String → Resolution) (names : Nat → String)

def Site.created (s : Site) : List Instruction :=
  [.slot .aload 1, .dynamic (blockSite env (names s.number)),
    .constant (.string (dotted (s.marker env names))),
    .invoke .invokevirtual ⟨env.library.object, "smalltalkBlockAnswer",
      s!"(Ljava/lang/Object;Ljava/lang/String;){env.library.objectType}"⟩]

def Catcher.last : Catcher → List Instruction
  | .send _ target parts _ | .cascaded _ target parts _ =>
    [.constant (.string (selectorOf parts)), .invoke .invokevirtual ⟨env.library.object,
      if target.asReceiver env resolve = .super then "superPerform" else "perform",
      env.library.sendDescriptor parts.length⟩]
  | .expression .. => []
  | .answer .. => [.plain .areturn]

/-- An exception entry that brings the answers of a block back: it catches the block's marker, its
range is the code of the block's catcher, in which the block is created, and its handler returns
the answer. -/
structure ExceptionEntry.Returns (b : MethodBody) (e : ExceptionEntry) (s : Site) : Prop where
  catches : e.catches = some (s.marker env names)
  range : ∃ before inner after,
    b.instructions = before ++ .mark e.start :: (inner ++ .mark e.stop :: after) ∧
      (s.catcher.code env resolve names).Emitted env inner ∧
      s.created env names <:+: inner ∧ s.catcher.last env resolve <:+ inner
  handler : ∃ before lines after,
    b.instructions = before ++ .mark e.handler ::
        (lines ++ .invoke .invokevirtual (Draft.answerMethod env (s.marker env names)) ::
          .plain .areturn :: after) ∧
      ∀ i ∈ lines, ∃ number, i = .line number

/-- The exception entries of a body are those of the blocks that it creates and that answer, one for
each. -/
def MethodBody.Wired (b : MethodBody) (sites : List Site) : Prop :=
  ∃ order, order.Perm (sites.filter (·.literal.escapes)) ∧
    List.Forall₂ (fun e s => e.Returns env resolve names b s) b.handlers order

theorem Site.creation_of_escapes {s : Site} (h : s.literal.escapes = true) :
    ∃ ops, s.creation env names = .line s.literal.span.line :: ops ∧
      (∀ op ∈ ops, op.isPlain = true) ∧ ops.map Operation.instruction = s.created env names := by
  obtain ⟨number, ⟨role, parameters, body, span⟩, catcher⟩ := s
  simp only [BlockLiteral.escapes, Bool.and_eq_true, beq_iff_eq] at h
  obtain ⟨rfl, hanswers⟩ := h
  simp only [Site.creation, Operation.block, hanswers]
  refine ⟨_, rfl, ?_, rfl⟩
  simp [Operation.isPlain, Operation.object]

variable {env resolve names}

/-- A keyword message that is sent ends with the call. -/
theorem Catcher.emitted_last {code : Code} {target : Expr} {parts : List KeywordPart} {span : Span}
    {inner : List Instruction} (hruns : code.Runs) (h : code.Emitted env inner)
    (hends : code.Ends (Operation.dispatch env (selectorOf parts) parts.length
      (target.asReceiver env resolve) span)) (before : Nat) :
    Catcher.last env resolve (.send before target parts span) <:+ inner := by
  have hsuffix := h.ends hruns (by simp [Operation.isPlain, Operation.object]) hends
  exact hsuffix

theorem Message.plan_ends {parts : List KeywordPart} {span : Span} {r : Receiver}
    (hr : r ≠ .escape) (k : Nat) :
    ((Message.keyword parts span).plan env resolve r names k).Ends
      (Operation.dispatch env (selectorOf parts) parts.length r span) := by
  rw [Message.plan, if_neg hr]
  rfl

/-- The code of a catcher creates its blocks, and ends as the catcher says. -/
theorem Site.emitted {s : Site} {inner : List Instruction} (hescapes : s.literal.escapes = true)
    (hsends : s.catcher.Sends env resolve)
    (hhas : (s.catcher.code env resolve names).Has (s.creation env names))
    (h : (s.catcher.code env resolve names).Emitted env inner) :
    s.created env names <:+: inner ∧ s.catcher.last env resolve <:+ inner := by
  obtain ⟨ops, hcreation, hplain, hcreated⟩ := creation_of_escapes env names hescapes
  rw [hcreation] at hhas
  rw [← hcreated]
  cases hc : s.catcher with
  | send before target parts span =>
    rw [hc] at hsends hhas h
    have hruns : (Catcher.code env resolve names (.send before target parts span)).Runs :=
      ⟨target.plan_runs env resolve names _, Message.plan_runs env resolve names _ _ _⟩
    exact ⟨h.has hruns hplain hhas,
      Catcher.emitted_last hruns h (Message.plan_ends hsends _) before⟩
  | cascaded before target parts span =>
    rw [hc] at hsends hhas h
    have hruns : (Catcher.code env resolve names (.cascaded before target parts span)).Runs :=
      Message.plan_runs env resolve names _ _ _
    exact ⟨h.has hruns hplain hhas,
      Catcher.emitted_last hruns h (Message.plan_ends hsends _) before⟩
  | expression before value =>
    rw [hc] at hhas h
    exact ⟨h.has (value.plan_runs env resolve names _) hplain hhas, List.nil_suffix⟩
  | answer before value span =>
    rw [hc] at hhas h
    have hruns := value.plan_runs env resolve names before
    obtain ⟨lines, middle, rfl, hmiddle⟩ := Code.Emitted.returned h hruns
    refine ⟨?_, List.suffix_append _ _⟩
    rcases hhas with hhas | hhas | hhas
    · obtain rfl : [] = ops := (List.cons.inj hhas).2
      cases hcreated
    · exact (hmiddle.has hruns hplain hhas).trans (List.infix_append _ _ _)
    · cases hhas

/-- The entries of a sequence's method. -/
theorem Sequence.wired {s : Sequence} {parameters : List Ident} (h : s.Checked env parameters)
    {whenEmpty : List Operation} {k : Nat} {locals : List VerificationType} {b : MethodBody}
    (hfinish : ((s.plan env parameters whenEmpty names k).run env (env.method locals)).finish =
      .ok b) :
    b.Wired env (lookup parameters s.temporaries) names (s.sites env k) := by
  have hfinishes := Draft.finishes_of_finish hfinish
  obtain ⟨entries, hentries, hall⟩ := s.plan_wires h rfl hfinishes.fault
  obtain ⟨order, hguards, horder⟩ := (congrFun₂ (List.eq_map_comp_perm _) _ _).mpr
    (s.plan_guards names h whenEmpty k)
  refine ⟨order, horder, ?_⟩
  have hhandlers : b.handlers = entries := by
    rw [hfinishes.handlers, hentries]
    rfl
  rw [hguards, ← hhandlers, List.forall₂_map_right_iff, ← hfinishes.instructions] at hall
  have hsites : ∀ site ∈ order, site ∈ s.sites env k ∧ site.literal.escapes = true :=
    fun site hsite => by simpa using horder.mem_iff.1 hsite
  refine ((List.forall₂_and_left _ _).2 ⟨hsites, hall.flip⟩).flip.imp ?_
  rintro e site ⟨⟨hsite, hescapes⟩, hguard⟩
  have hchecked : statementsChecked env (lookup parameters s.temporaries) s.statements := by
    obtain ⟨temporaries, ss, span⟩ := s
    exact h
  obtain ⟨hsends, hhas⟩ := creates_of_mem_statementSites names hchecked hsite
  obtain ⟨before, inner, after, hrange, hemitted⟩ := hguard.range
  exact ⟨hguard.catches, ⟨before, inner, after, hrange, hemitted,
    site.emitted hescapes hsends hhas hemitted⟩, hguard.handler⟩

variable (env names) in
def markersOf (entries : List (BlockLiteral × Nat)) : List String :=
  (entries.filter (·.1.escapes)).map fun x => env.markerName (names x.2)

theorem markersOf_append (first second : List (BlockLiteral × Nat)) :
    markersOf env names (first ++ second) =
      markersOf env names first ++ markersOf env names second := by
  simp [markersOf]

theorem markersOf_perm {first second : List (BlockLiteral × Nat)} (h : first.Perm second) :
    (markersOf env names first).Perm (markersOf env names second) :=
  (h.filter _).map _

/-- A body catches the markers of the blocks that it creates. -/
theorem MethodBody.Wired.catches {b : MethodBody} {sites : List Site}
    (h : b.Wired env resolve names sites) :
    (b.handlers.map ExceptionEntry.catches).Perm
      ((markersOf env names (sites.map Site.entry)).map some) := by
  obtain ⟨order, horder, hall⟩ := h
  have hcatches : b.handlers.map ExceptionEntry.catches =
      order.map fun s => some (s.marker env names) := by
    rw [← List.forall₂_eq_eq_eq, List.forall₂_map_left_iff, List.forall₂_map_right_iff]
    exact hall.imp fun e s hreturns => hreturns.catches
  have hmarkers : (markersOf env names (sites.map Site.entry)).map some =
      (sites.filter (·.literal.escapes)).map fun s => some (s.marker env names) := by
    rw [markersOf, List.filter_map, List.map_map, List.map_map]
    rfl
  rw [hcatches, hmarkers]
  exact horder.map _

theorem innerEntries_cons (k : Nat) (literal : BlockLiteral) (literals : List BlockLiteral) :
    innerEntries env k (literal :: literals) =
      (literal.body.sites env (k - (literal.body.blocks env).length)).map Site.entry ++
        innerEntries env (k + 1) literals := by
  simp [innerEntries, List.zipIdx_cons]

theorem BlockLiteral.Compiled.wired {literal : BlockLiteral} {i : Nat} {method : Method}
    (h : literal.Compiled env names i method)
    (hchecked : literal.body.Checked env literal.parameters) :
    method.body.Wired env (lookup literal.parameters literal.body.temporaries) names
      (literal.body.sites env (i - (literal.body.blocks env).length)) :=
  Sequence.wired hchecked h.body

/-- The methods of some blocks catch the markers of the blocks inside them. -/
theorem Blocks.catches {k : Nat} {literals : List BlockLiteral} {methods : List Method}
    {files : List ClassFile} (h : Blocks env names k literals methods files)
    (hchecked : ∀ literal ∈ literals, literal.body.Checked env literal.parameters) :
    ((methods.flatMap (·.body.handlers)).map ExceptionEntry.catches).Perm
      ((markersOf env names (innerEntries env k literals)).map some) := by
  induction h with
  | nil k => exact List.Perm.refl _
  | cons compiled marked rest ih =>
    obtain ⟨hfirst, hrest⟩ := List.forall_mem_cons.1 hchecked
    rw [List.flatMap_cons, List.map_append, innerEntries_cons, markersOf_append, List.map_append]
    exact (compiled.wired hfirst).catches.append (ih hrest)

theorem markerClass_name {name : String} {span : Span} {file : ClassFile}
    (h : markerClass env name span = .ok file) : file.name = name := by
  unfold markerClass at h
  split at h
  · cases h
  · cases h
    rfl

/-- The marker classes of some blocks. -/
theorem Blocks.markers_eq {k : Nat} {literals : List BlockLiteral} {methods : List Method}
    {files : List ClassFile} (h : Blocks env names k literals methods files) :
    files.map ClassFile.name = markersOf env names (literals.zipIdx k) := by
  induction h with
  | nil k => rfl
  | @cons k literal literals method methods first files compiled marked rest ih =>
    rw [List.map_append, ih, List.zipIdx_cons, ← List.singleton_append, markersOf_append]
    congr 1
    unfold BlockLiteral.Marked at marked
    split_ifs at marked with hescapes
    · obtain ⟨file, hfile, rfl⟩ := marked
      simp [markersOf, hescapes, compiled.name, markerClass_name hfile]
    · simp [markersOf, hescapes, marked]

theorem Blocks.names_eq {k : Nat} {literals : List BlockLiteral} {methods : List Method}
    {files : List ClassFile} (h : Blocks env names k literals methods files) :
    methods.map Method.name = (literals.zipIdx k).map fun x => names x.2 := by
  induction h with
  | nil k => rfl
  | cons compiled marked rest ih =>
    rw [List.map_cons, List.zipIdx_cons, List.map_cons, ih, compiled.name]

theorem map_eq_self_of_isLegal {name : String} (h : BlockName.isLegal name = true) :
    (name.toList.map fun c => if c = '.' then '/' else c).map
      (fun c => if c = '/' then '.' else c) = name.toList := by
  rw [List.map_map]
  refine (List.map_congr_left fun c hc => ?_).trans (List.map_id _)
  have hlegal : c ∉ BlockName.forbidden := by
    have hall := (Bool.and_eq_true_iff.1 h).2
    simpa using List.all_eq_true.1 hall c hc
  have hdot : c ≠ '.' := by
    rintro rfl
    exact hlegal (by decide)
  have hslash : c ≠ '/' := by
    rintro rfl
    exact hlegal (by decide)
  simp [hdot, hslash]

/-- Blocks with different names have different markers. -/
theorem Env.markerName_injective {first second : String} (h₁ : BlockName.isLegal first = true)
    (h₂ : BlockName.isLegal second = true)
    (h : dotted (env.markerName first) = dotted (env.markerName second)) : first = second := by
  have hlist (block : String) (hblock : BlockName.isLegal block = true) :
      (dotted (env.markerName block)).toList =
        (dotted (slashed (env.unit.binary ++ "$A"))).toList ++ block.toList := by
    have hmarker : env.unit.marker block = env.unit.binary ++ "$A" ++ block := rfl
    simp only [dotted, Env.markerName, slashed, hmarker, String.toList_map, String.toList_append,
      List.map_append, List.append_assoc]
    rw [map_eq_self_of_isLegal hblock]
  rw [← String.toList_inj, hlist first h₁, hlist second h₂] at h
  exact String.toList_inj.1 (List.append_cancel_left h)

/-- The blocks of a script have different markers. -/
theorem Compile.Generated.Outlined.markers_nodup {g : Generated} {script : Script}
    (h : g.Outlined env script) :
    ((script.body.blocks env).zipIdx.map fun x => dotted (env.markerName (g.names x.2))).Nodup := by
  have hlegal : ∀ x ∈ g.blocks.map Method.name, BlockName.isLegal x = true := by
    simpa using h.legal
  have hmarkers : (script.body.blocks env).zipIdx.map (fun x =>
      dotted (env.markerName (g.names x.2))) =
      (g.blocks.map Method.name).map fun name => dotted (env.markerName name) := by
    rw [h.blocks.names_eq, List.map_map]
    rfl
  rw [hmarkers]
  exact List.Nodup.map_on (fun x hx y hy => Env.markerName_injective (hlegal x hx) (hlegal y hy))
    h.nodup

theorem Compile.Generated.Outlined.markersOf_nodup {g : Generated} {script : Script}
    (h : g.Outlined env script) :
    ((markersOf env g.names (script.body.blocks env).zipIdx).map dotted).Nodup := by
  rw [markersOf, List.map_map]
  exact h.markers_nodup.sublist (List.filter_sublist.map _)

end

def CompiledUnit.handlers (u : CompiledUnit) : List ExceptionEntry :=
  u.classes.flatMap fun c => c.file.methods.flatMap (·.body.handlers)

section

variable {env : Env} {script : Script} {g : Generated} {u : CompiledUnit} {fixed : List Method}

/-- Only the methods of the script and of its blocks have exception entries. -/
theorem CompiledUnit.Consists.handlers_eq (h : u.Consists env script g fixed) :
    u.handlers = g.sendMessages.body.handlers ++ g.blocks.flatMap (·.body.handlers) := by
  have hmarkers : (u.markers.flatMap fun c => c.file.methods.flatMap (·.body.handlers)) = [] := by
    refine List.flatMap_eq_nil_iff.2 fun c hc => List.flatMap_eq_nil_iff.2 fun m hm => ?_
    obtain ⟨name, span, hmarker⟩ := h.exists_markerClass hc
    exact (markerClass_verified hmarker hm).2
  have hfixed : fixed.flatMap (·.body.handlers) = [] :=
    List.flatMap_eq_nil_iff.2 fun m hm => (fixedMethods_verified h.prepares h.name hm).2
  rw [handlers, classes, List.flatMap_append, hmarkers, List.nil_append, List.flatMap_singleton,
    h.methods, List.flatMap_append, hfixed, List.nil_append, List.flatMap_cons]

theorem script_wired (h : generate env script = .ok g) :
    g.sendMessages.body.Wired env (lookup [] script.body.temporaries) g.names
      (script.body.sites env 0) :=
  Sequence.wired (generate_checked env h) (generate_outlined env h).body

/-- The entries of a unit catch the markers of its blocks, each of them once. -/
theorem CompiledUnit.Consists.catches (h : u.Consists env script g fixed) :
    (u.handlers.map ExceptionEntry.catches).Perm
      ((markersOf env g.names (script.body.blocks env).zipIdx).map some) := by
  have hchecked := generate_checked env h.generates
  have hblocks := (generate_outlined env h.generates).blocks.catches
    (generate_checked_blocks env h.generates)
  rw [h.handlers_eq, List.map_append]
  refine ((script_wired h.generates).catches.append hblocks).trans ?_
  rw [← List.map_append, ← markersOf_append]
  exact (markersOf_perm (script.body.covers env 0)).map _

variable (env script g) in
/-- The method that creates a block, with what names resolve to in it: the script's own, or that of
the block around. -/
inductive Compile.Generated.Creates : Method → (String → Resolution) → Site → Prop where
  | script {s : Site} (h : s ∈ script.body.sites env 0) :
      Creates g.sendMessages (lookup [] script.body.temporaries) s
  | block {i : Nat} {literal : BlockLiteral} {method : Method} {s : Site}
      (hl : (script.body.blocks env)[i]? = some literal) (hm : g.blocks[i]? = some method)
      (h : s ∈ literal.body.sites env (i - (literal.body.blocks env).length)) :
      Creates method (lookup literal.parameters literal.body.temporaries) s

theorem Compile.Generated.Creates.mem {m : Method} {resolve : String → Resolution} {s : Site}
    (h : g.Creates env script m resolve s) : m ∈ g.sendMessages :: g.blocks := by
  cases h with
  | script h => exact List.mem_cons_self
  | block hl hm h => exact List.mem_cons_of_mem _ (List.mem_of_getElem? hm)

theorem Compile.Generated.Creates.wired (hg : generate env script = .ok g) {m : Method}
    {resolve : String → Resolution} {s : Site} (h : g.Creates env script m resolve s) :
    ∃ sites, s ∈ sites ∧ m.body.Wired env resolve g.names sites := by
  cases h with
  | script h => exact ⟨_, h, script_wired hg⟩
  | @block i literal _ _ hl hm h =>
    have hcompiled := (generate_outlined env hg).compiled hl hm
    exact ⟨_, h, hcompiled.wired (generate_checked_blocks env hg literal
      (List.mem_of_getElem? hl))⟩

/-- Every block is created by some method. -/
theorem exists_creates (hg : generate env script = .ok g) {i : Nat} {literal : BlockLiteral}
    (hl : (script.body.blocks env)[i]? = some literal) :
    ∃ m resolve s, g.Creates env script m resolve s ∧ s.entry = (literal, i) := by
  have hblocks := (generate_outlined env hg).blocks
  have hmem : (literal, i) ∈ (script.body.blocks env).zipIdx := List.mem_zipIdx_iff_getElem?.2 hl
  rcases List.mem_append.1 ((script.body.covers env 0).mem_iff.2 hmem) with h | h
  · obtain ⟨s, hs, hentry⟩ := List.mem_map.1 h
    exact ⟨_, _, s, .script hs, hentry⟩
  · obtain ⟨⟨outer, j⟩, houter, h⟩ := List.mem_flatMap.1 h
    obtain ⟨s, hs, hentry⟩ := List.mem_map.1 h
    have hj := List.mem_zipIdx_iff_getElem?.1 houter
    have hlt := (List.getElem?_eq_some_iff.1 hj).1
    rw [← hblocks.length_eq] at hlt
    exact ⟨_, _, s, .block hj (List.getElem?_eq_getElem hlt) hs, hentry⟩

/-- A marker is caught by one entry of the unit. -/
theorem CompiledUnit.Consists.filter_catches (h : u.Consists env script g fixed)
    {e : ExceptionEntry} (he : e ∈ u.handlers) {marker : String}
    (hcatches : e.catches = some marker) :
    u.handlers.filter (·.catches == some marker) = [e] := by
  have hnodup := (generate_outlined env h.generates).markersOf_nodup.of_map
  have hcount : (u.handlers.filter (·.catches == some marker)).length ≤ 1 := by
    have hone := List.nodup_iff_count_le_one.1
      (h.catches.nodup_iff.2 (hnodup.map fun _ _ => Option.some.inj)) (some marker)
    rwa [List.count, List.countP_map, List.countP_eq_length_filter] at hone
  have hmem : e ∈ u.handlers.filter (·.catches == some marker) := by
    simp [he, hcatches]
  obtain ⟨x, hx⟩ := List.length_eq_one_iff.1
    (Nat.le_antisymm hcount (List.length_pos_of_mem hmem))
  rw [hx] at hmem ⊢
  rw [List.mem_singleton.1 hmem]

theorem LabelsAhead.count_mark_le {code : List Instruction} (h : LabelsAhead code)
    (label : Label) : code.count (.mark label) ≤ 1 := by
  induction code with
  | nil => simp
  | cons i code ih =>
    obtain ⟨hi, hcode⟩ := List.pairwise_cons.1 h
    by_cases hmark : i = .mark label
    · have hnone : code.count (.mark label) = 0 :=
        List.count_eq_zero.2 fun hmem => hi _ hmem label hmark rfl
      simp [hmark, hnone]
    · rw [List.count_cons_of_ne hmark]
      exact ih hcode

variable (u env script g) in
/-- Answers are wired: the blocks that answer from the method that created them correspond to the
marker classes of the unit, and each of them to one exception entry, in that method. -/
structure CompiledUnit.AnswersWired : Prop where
  /-- The marker classes are those of the blocks that answer, in their order. -/
  markers : u.markers.map (fun c => c.file.name) =
    markersOf env g.names (script.body.blocks env).zipIdx
  distinct : (u.markers.map CompiledClass.name).Nodup
  /-- Every block is created by a method of the unit. -/
  created (i : Nat) (literal : BlockLiteral) (h : (script.body.blocks env)[i]? = some literal) :
    ∃ m resolve s, g.Creates env script m resolve s ∧ s.literal = literal ∧ s.number = i
  /-- The answers of a block come back to the method that creates it, and nowhere else. -/
  caught (m : Method) (resolve : String → Resolution) (s : Site)
    (h : g.Creates env script m resolve s) (hs : s.literal.escapes = true) :
    ∃ e ∈ m.body.handlers, e.Returns env resolve g.names m.body s ∧
      u.handlers.filter (·.catches == some (s.marker env g.names)) = [e]
  /-- Blocks that do not answer from there have neither a marker class nor an entry. -/
  unmarked (i : Nat) (literal : BlockLiteral) (h : (script.body.blocks env)[i]? = some literal)
    (hs : literal.escapes = false) :
    env.markerName (g.names i) ∉ u.markers.map (fun c => c.file.name) ∧
      ∀ e ∈ u.handlers, e.catches ≠ some (env.markerName (g.names i))
  /-- There are no other entries. -/
  entries : ∀ e ∈ u.handlers, ∃ i literal, (script.body.blocks env)[i]? = some literal ∧
    literal.escapes = true ∧ e.catches = some (env.markerName (g.names i))
  /-- The labels of ranges and handlers stand at one place each. -/
  labels : ∀ m ∈ u.primary.file.methods, ∀ label, m.body.instructions.count (.mark label) ≤ 1

theorem mem_markersOf {names : Nat → String} {blocks : List BlockLiteral} {marker : String} :
    marker ∈ markersOf env names blocks.zipIdx ↔ ∃ i literal, blocks[i]? = some literal ∧
      literal.escapes = true ∧ marker = env.markerName (names i) := by
  simp only [markersOf, List.mem_map, List.mem_filter, Prod.exists, List.mem_zipIdx_iff_getElem?]
  constructor
  · rintro ⟨literal, i, ⟨hl, hs⟩, rfl⟩
    exact ⟨i, literal, hl, hs, rfl⟩
  · rintro ⟨i, literal, hl, hs, rfl⟩
    exact ⟨literal, i, ⟨hl, hs⟩, rfl⟩

/-- A block that does not answer from the method that created it shares its marker with no other. -/
theorem Compile.Generated.Outlined.markerName_notMem (h : g.Outlined env script) {i : Nat}
    {literal : BlockLiteral} (hl : (script.body.blocks env)[i]? = some literal)
    (hs : literal.escapes = false) :
    env.markerName (g.names i) ∉ markersOf env g.names (script.body.blocks env).zipIdx := by
  intro hmem
  obtain ⟨j, other, hj, hother, heq⟩ := mem_markersOf.1 hmem
  have hsame : (literal, i) = (other, j) :=
    List.inj_on_of_nodup_map h.markers_nodup (List.mem_zipIdx_iff_getElem?.2 hl)
      (List.mem_zipIdx_iff_getElem?.2 hj) (congrArg dotted heq)
  cases hsame
  rw [hs] at hother
  cases hother

namespace CompiledUnit.Consists

variable (h : u.Consists env script g fixed)

include h

theorem markers_eq : u.markers.map (fun c => c.file.name) =
    markersOf env g.names (script.body.blocks env).zipIdx := by
  rw [← (generate_outlined env h.generates).blocks.markers_eq, ← h.markers, List.map_map]
  rfl

theorem exists_marker {e : ExceptionEntry} (he : e ∈ u.handlers) : ∃ marker,
    marker ∈ markersOf env g.names (script.body.blocks env).zipIdx ∧ e.catches = some marker := by
  obtain ⟨marker, hmarker, heq⟩ := List.mem_map.1 (h.catches.mem_iff.1 (List.mem_map_of_mem he))
  exact ⟨marker, hmarker, heq.symm⟩

theorem mem_handlers {m : Method} (hm : m ∈ g.sendMessages :: g.blocks) {e : ExceptionEntry}
    (he : e ∈ m.body.handlers) : e ∈ u.handlers := by
  rw [h.handlers_eq, List.mem_append, List.mem_flatMap]
  rcases List.mem_cons.1 hm with rfl | hm
  · exact .inl he
  · exact .inr ⟨m, hm, he⟩

theorem exists_returns {m : Method} {resolve : String → Resolution} {s : Site}
    (hcreates : g.Creates env script m resolve s) (hs : s.literal.escapes = true) :
    ∃ e ∈ m.body.handlers, e.Returns env resolve g.names m.body s ∧
      u.handlers.filter (·.catches == some (s.marker env g.names)) = [e] := by
  obtain ⟨sites, hmem, order, horder, hall⟩ := hcreates.wired h.generates
  have horder : s ∈ order := horder.mem_iff.2 (List.mem_filter.2 ⟨hmem, hs⟩)
  obtain ⟨e, he, hreturns⟩ := exists_of_mem_right hall horder
  exact ⟨e, he, hreturns, h.filter_catches (h.mem_handlers hcreates.mem he) hreturns.catches⟩

theorem ahead {m : Method} (hm : m ∈ u.primary.file.methods) : LabelsAhead m.body.instructions := by
  rw [h.methods, List.mem_append] at hm
  rcases hm with hm | hm
  · exact (fixedMethods_verified h.prepares h.name hm).1.ahead
  · exact (generated_verified h.generates u.primary.file hm).ahead

end CompiledUnit.Consists

end

/-- In every compiled unit, answers are wired. -/
theorem compileUnit_wires_answers {settings : Settings} {unit : UnitName} {script : Script}
    {u : CompiledUnit} (h : compileUnit settings unit script = .ok u) :
    ∃ g fixed, u.Consists ⟨settings, unit⟩ script g fixed ∧
      u.AnswersWired ⟨settings, unit⟩ script g := by
  obtain ⟨g, fixed, hu⟩ := compileUnit_consists h
  have houtlined := generate_outlined _ hu.generates
  refine ⟨g, fixed, hu, hu.markers_eq, ?_, ?_, fun m resolve s => hu.exists_returns, ?_, ?_,
    fun m hm => (hu.ahead hm).count_mark_le⟩
  · have hnames : u.markers.map CompiledClass.name =
        (u.markers.map fun c => c.file.name).map dotted := by
      rw [List.map_map]
      rfl
    rw [hnames, hu.markers_eq]
    exact houtlined.markersOf_nodup
  · intro i literal hl
    obtain ⟨m, resolve, s, hs, hentry⟩ := exists_creates hu.generates hl
    exact ⟨m, resolve, s, hs, Prod.mk.inj hentry⟩
  · intro i literal hl hs
    have hnot := houtlined.markerName_notMem hl hs
    refine ⟨by rwa [hu.markers_eq], fun e he heq => ?_⟩
    obtain ⟨marker, hmarker, hcatches⟩ := hu.exists_marker he
    obtain rfl := Option.some.inj (hcatches.symm.trans heq)
    exact hnot hmarker
  · intro e he
    obtain ⟨marker, hmarker, hcatches⟩ := hu.exists_marker he
    obtain ⟨i, literal, hl, hs, rfl⟩ := mem_markersOf.1 hmarker
    exact ⟨i, literal, hl, hs, hcatches⟩

theorem wired_of_sample : ∃ u, compileUnit {} Sample.unit Sample.script = .ok u ∧
    ∃ g fixed, u.Consists Sample.env Sample.script g fixed ∧
      g.markers.length = 2 ∧ g.sendMessages.body.handlers.length = 2 ∧
      u.AnswersWired Sample.env Sample.script g := by
  obtain ⟨u, hu⟩ := Sample.compiles
  obtain ⟨g, fixed, hconsists, hwired⟩ := compileUnit_wires_answers hu
  obtain ⟨-, hmarkers, hhandlers⟩ := Sample.generated hconsists.generates
  exact ⟨u, hu, g, fixed, hconsists, hmarkers, hhandlers, hwired⟩

end SmalltalkJvm
