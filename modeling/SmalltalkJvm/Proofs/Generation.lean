import SmalltalkJvm.Proofs.Steps

/-! # Generated code is the code of the script

A construct that compiles adds exactly its code to the method around it, and its blocks to the unit.
The proof follows the compiler: one theorem for each kind of construct, by recursion on the script.

For a whole script this gives each generated method as the code of a sequence, run from an empty
draft.
-/

namespace SmalltalkJvm

open Compile

variable (env : Env)

/-- The state in which the sequence of a block is compiled, and how its method is completed. -/
theorem block_entered {role : BlockRole} {parameters : List Ident} {answers : Bool} {span : Span}
    {sequence : Compile Unit} {s s' : State}
    (h : block env role parameters answers span sequence s = .ok () s') :
    ∃ name next scope inner, BlockName.choose s.taken s.nextBlock s.symbol? = (name, next) ∧
      scope.Declares parameters [] ∧ sequence (s.entered env name next scope) = .ok () inner ∧
      (do
        popScope
        let body ← leaveMethod span
        modify fun s => { s with
          blocks := s.blocks.push ⟨Access.isPrivate ||| Access.isStatic ||| Access.isSynthetic,
            name, env.library.blockDescriptor, body⟩ }
        pushBlock env role answers name span : Compile Unit) inner = .ok () s' := by
  obtain ⟨name, s₀, hname, h⟩ := bind_ok h
  obtain ⟨next, hchoose, rfl⟩ := nameBlock_ok hname
  obtain ⟨⟨⟩, s₁, henter, h⟩ := bind_ok h
  cases henter
  obtain ⟨⟨⟩, s₁, hscope, h⟩ := bind_ok h
  cases hscope
  obtain ⟨⟨⟩, s₁, hdeclare, h⟩ := bind_ok h
  obtain ⟨scope, hdeclares, hs₁⟩ := declareAll_ok (D := fun ps top => top.Declares ps [])
    (fun hd hc => hd.argument hc) hdeclare rfl Scope.declares_empty
  have hentered : s₁ = s.entered env name next scope := hs₁
  subst hentered
  obtain ⟨⟨⟩, inner, hbody, h⟩ := bind_ok h
  exact ⟨name, next, scope, inner, hchoose, hdeclares, hbody, h⟩

theorem block_grows (literal : BlockLiteral) {sequence : Compile Unit}
    (hsequence : ∀ {s s'}, sequence s = .ok () s' →
      literal.body.Grows env literal.parameters (Draft.nilOperations env) s s')
    {s s' : State}
    (h : block env literal.role literal.parameters literal.body.answers literal.span sequence s =
      .ok () s') :
    Grows env s s' (literal.plan env) (literal.body.blocks env ++ [literal]) := by
  obtain ⟨name, next, scope, inner, hchoose, hdeclares, hbody, h⟩ := block_entered env h
  have hfree : name ∉ s.taken := by
    have := BlockName.choose_notMem s.taken s.nextBlock s.symbol?
    rwa [hchoose] at this
  have hlegal : BlockName.isLegal name = true := by
    have := BlockName.isLegal_choose s.taken s.nextBlock s.symbol?
    rwa [hchoose] at this
  obtain ⟨⟨top, hscopes⟩, methods, files, hemits⟩ := hsequence hbody scope _ rfl hdeclares
  obtain ⟨⟨⟩, s₂, hpop, h⟩ := bind_ok h
  cases hpop
  obtain ⟨body, s₂, hleave, h⟩ := bind_ok h
  obtain ⟨hfinish, rfl⟩ := leaveMethod_ok hleave hemits.suspended
  obtain ⟨⟨⟩, s₂, hadd, h⟩ := bind_ok h
  cases hadd
  obtain ⟨method, hmethod⟩ : ∃ m : Method, m = ⟨Access.isPrivate ||| Access.isStatic |||
    Access.isSynthetic, name, env.library.blockDescriptor, body⟩ := ⟨_, rfl⟩
  have hpopped : inner.scopes.pop = s.scopes := by
    rw [hscopes]
    rfl
  have hpush : pushBlock env literal.role literal.body.answers method.name literal.span
      { inner with
        current := s.current
        suspended := s.suspended
        scopes := inner.scopes.pop
        blocks := inner.blocks.push method } = .ok () s' := by
    rw [hmethod]
    exact h
  rw [hpopped] at hpush
  obtain ⟨first, hmarked, rfl⟩ := pushBlock_ok env hpush
  have hnamed : method.name = name := by rw [hmethod]
  rw [hnamed]
  exact ⟨rfl, _, _, hemits.block env hfree hlegal (by rw [hfinish, hmethod]) hnamed
    (by rw [hmethod]) (by rw [hmethod]) hmarked⟩

section

variable {s s' : State} {p : Plan} {literals : List BlockLiteral}

theorem inRegion_grows {wanted : Bool} {span : Span} {action : Compile Unit}
    (haction : ∀ s₁ s₂, s₁.scopes = s.scopes → action s₁ = .ok () s₂ →
      Grows env s₁ s₂ p literals)
    (h : inRegion env wanted span action s = .ok () s') :
    Grows env s s' (.region wanted span p) literals := by
  cases wanted with
  | false => exact haction s s' rfl h
  | true =>
    obtain ⟨⟨⟩, opened, hopen, h⟩ := bind_ok h
    cases hopen
    obtain ⟨⟨⟩, inner, hinner, hclose⟩ := bind_ok h
    obtain ⟨hscopes, methods, files, hemits⟩ := haction (s.opened span) inner rfl hinner
    obtain ⟨region, rest, hregions, hs'⟩ := closeRegion_ok env hclose
    refine ⟨?_, methods, files, hemits.region env hregions hs'⟩
    rw [hs']
    exact hscopes

theorem statementWith_grows {isLast : Bool} {span : Span} {action : Compile Unit}
    (haction : ∀ s₁ s₂, s₁.scopes = s.scopes → action s₁ = .ok () s₂ →
      Grows env s₁ s₂ p literals)
    (h : statementWith env isLast span action s = .ok () s') :
    Grows env s s' (.statement isLast span p) literals := by
  obtain ⟨closed, hregion, rfl⟩ := statementWith_ok env h
  obtain ⟨hscopes, methods, files, hemits⟩ := inRegion_grows env haction hregion
  exact ⟨hscopes, methods, files, hemits.statement env isLast⟩

end

theorem reference_grows {name : String} {span : Span} {r : Receiver} {s s' : State}
    {resolve : String → Resolution} (hresolve : ∀ name, s.scopes.resolve name = resolve name)
    (h : reference env name span s = .ok r s') :
    r = (Expr.reference name span).asReceiver env resolve ∧
      Grows env s s' ((Expr.reference name span).plan env resolve) [] := by
  obtain ⟨resolution, s₁, hr, h⟩ := bind_ok h
  obtain ⟨hresolution, rfl⟩ : resolve name = resolution ∧ s = s₁ := by
    rw [← hresolve]
    cases hr
    exact ⟨rfl, rfl⟩
  simp only [Expr.asReceiver, Expr.plan, hresolution]
  by_cases hescape : resolution = .unresolved ∧ name = env.settings.escapeIdentifier
  · rw [if_pos hescape] at h
    rw [if_pos hescape, if_pos hescape]
    cases h
    exact ⟨rfl, Grows.operations env rfl⟩
  · rw [if_neg hescape] at h
    rw [if_neg hescape, if_neg hescape]
    cases resolution <;> cases h <;> exact ⟨rfl, Grows.operations env rfl⟩

mutual

theorem receiver_grows (e : Expr) {resolve : String → Resolution} {r : Receiver} {s s' : State}
    (hresolve : ∀ name, s.scopes.resolve name = resolve name)
    (h : receiver env e s = .ok r s') :
    r = e.asReceiver env resolve ∧ Grows env s s' (e.plan env resolve) (e.blocks env) := by
  cases e with
  | literal kind text span =>
    cases h
    exact ⟨rfl, Grows.operations env rfl⟩
  | pseudo word span => cases word <;> cases h <;> exact ⟨rfl, Grows.operations env rfl⟩
  | reference name span => exact reference_grows env hresolve h
  | block parameters body span =>
    obtain ⟨⟨⟩, s₁, hblock, h⟩ := bind_ok h
    cases h
    exact ⟨rfl, block_grows env ⟨.value, parameters, body, span⟩
      (fun hs => sequence_grows body (fun _ => rfl) hs) hblock⟩
  | send target m span =>
    obtain ⟨⟨⟩, s₁, hregion, h⟩ := bind_ok h
    cases h
    refine ⟨rfl, inRegion_grows env (fun s₁ s₂ hscopes haction => ?_) hregion⟩
    obtain ⟨r, s₃, htarget, hmessage⟩ := bind_ok haction
    obtain ⟨rfl, hgrows⟩ := receiver_grows target (by simpa [hscopes] using hresolve) htarget
    refine hgrows.trans env (message_grows m ?_ hmessage)
    simpa [hgrows.1, hscopes] using hresolve
  | cascade target messages span =>
    obtain ⟨-, rfl, r, s₁, htarget, hcascade⟩ := receiver_cascade_ok env h
    obtain ⟨rfl, hgrows⟩ := receiver_grows target hresolve htarget
    refine ⟨rfl, hgrows.trans env (cascade_grows messages ?_ hcascade)⟩
    simpa [hgrows.1] using hresolve
  | assign target value span =>
    obtain ⟨rfl, slot, s₁, hresolution, hvalue, rfl⟩ := receiver_assign_ok env h
    obtain ⟨r', hvalue⟩ := asValue_ok env hvalue
    obtain ⟨-, hgrows⟩ := receiver_grows value hresolve hvalue
    rw [hresolve] at hresolution
    refine ⟨rfl, ?_⟩
    simp only [Expr.plan, hresolution]
    exact hgrows.andOperations env rfl
  | paren inner span =>
    obtain ⟨rfl, hinner⟩ := receiver_paren_ok env h
    obtain ⟨r, hinner⟩ := asValue_ok env hinner
    exact ⟨rfl, (receiver_grows inner hresolve hinner).2⟩
  | primitive number span => cases h

theorem message_grows (m : Message) {resolve : String → Resolution} {r : Receiver} {s s' : State}
    (hresolve : ∀ name, s.scopes.resolve name = resolve name)
    (h : message env r m s = .ok () s') :
    Grows env s s' (m.plan env resolve r) (m.blocks env) := by
  cases m with
  | unary selector =>
    obtain ⟨⟨⟩, s₁, hreject, h⟩ := bind_ok h
    cases rejectEscape_ok env hreject
    exact Grows.operations env (dispatch_ok env h)
  | binary selector argument span =>
    obtain ⟨-, s₁, hargument, hs'⟩ := message_binary_ok env h
    obtain ⟨r', hargument⟩ := asValue_ok env hargument
    obtain ⟨-, hgrows⟩ := receiver_grows argument hresolve hargument
    exact hgrows.andOperations env hs'
  | keyword parts span =>
    by_cases hr : r = .escape
    · obtain ⟨⟨⟩, s₁, hcheck, h⟩ := bind_ok h
      cases checkParts_ok hcheck
      rw [if_pos hr] at h
      obtain ⟨hblocks, hs'⟩ := escape_ok env h
      rw [Message.plan, if_pos hr, Message.blocks, hblocks]
      exact Grows.operations env hs'
    · obtain ⟨s₁, s₂, hopen, harguments, hs'⟩ := message_keyword_ok env hr h
      rw [Message.plan, if_neg hr]
      cases hopen
      have hgrows := arguments_grows (s := { s with pending := { span } :: s.pending }) parts
        hresolve harguments
      exact (hgrows.withPending env s.pending s₂.pending.tail).andOperations env hs'

theorem cascade_grows (messages : List Message) {resolve : String → Resolution} {r : Receiver}
    {s s' : State}
    (hresolve : ∀ name, s.scopes.resolve name = resolve name)
    (h : cascade env r messages s = .ok () s') :
    Grows env s s' (cascadePlan env resolve r messages) (messageBlocks env messages) := by
  cases messages with
  | nil =>
    cases h
    exact Grows.operations env rfl
  | cons m rest =>
    rw [cascade] at h
    rw [cascadePlan, messageBlocks]
    by_cases hr : r = .escape
    · rw [if_pos hr] at h
      rw [if_pos hr]
      obtain ⟨⟨⟩, s₁, hm, h⟩ := bind_ok h
      have hgrows := message_grows m hresolve hm
      exact hgrows.trans env (cascade_grows rest (by simpa [hgrows.1] using hresolve) h)
    · rw [if_neg hr] at h
      rw [if_neg hr]
      have hm (s₁ s₂ : State) (hscopes : s₁.scopes = s.scopes)
          (hmessage : message env r m s₁ = .ok () s₂) :
          Grows env s₁ s₂ (m.plan env resolve r) (m.blocks env) :=
        message_grows m (by simpa [hscopes] using hresolve) hmessage
      cases rest with
      | nil =>
        obtain ⟨⟨⟩, s₁, hregion, h⟩ := bind_ok h
        cases h
        have hnothing (s : State) : Grows env s s (.operations []) [] := Grows.operations env rfl
        exact (hnothing s).trans env ((inRegion_grows env hm hregion).trans env
          ((hnothing s').trans env (hnothing s')))
      | cons next rest =>
        obtain ⟨⟨⟩, s₁, hdup, h⟩ := bind_ok h
        cases hdup
        obtain ⟨⟨⟩, s₂, hregion, h⟩ := bind_ok h
        have hgrows := inRegion_grows env (s := s.withDraft (s.current.draft.step (.plain .dup))) hm
          hregion
        obtain ⟨⟨⟩, s₃, hdiscard, h⟩ := bind_ok h
        cases hdiscard
        have hrest := cascade_grows (next :: rest) (by simpa [hgrows.1] using hresolve) h
        exact (Grows.operations env rfl).trans env (hgrows.trans env
          ((Grows.operations env rfl).trans env hrest))

theorem arguments_grows (parts : List KeywordPart) {resolve : String → Resolution} {first : Bool}
    {s s' : State}
    (hresolve : ∀ name, s.scopes.resolve name = resolve name)
    (h : arguments env first parts s = .ok () s') :
    Grows env s s' (argumentsPlan env resolve parts) (argumentBlocks env parts) := by
  cases parts with
  | nil =>
    cases h
    exact Grows.operations env rfl
  | cons part rest =>
    obtain ⟨keyword, argument⟩ := part
    rw [arguments] at h
    obtain ⟨⟨⟩, s₁, hnote, h⟩ := bind_ok h
    obtain ⟨pending, rfl⟩ := notePart_ok hnote
    have hvalue {r : Receiver} {s₁ : State}
        (hr : receiver env argument { s with pending } = .ok r s₁) :
        Grows env { s with pending } s₁ (argument.plan env resolve) (argument.blocks env) :=
      (receiver_grows (s := { s with pending }) argument hresolve hr).2
    have hrest {s₁ : State} (hscopes : s₁.scopes = s.scopes)
        (hr : arguments env false rest s₁ = .ok () s') :
        Grows env s₁ s' (argumentsPlan env resolve rest) (argumentBlocks env rest) :=
      arguments_grows rest (by simpa [hscopes] using hresolve) hr
    cases argument with
    | block ps body span =>
      obtain ⟨⟨⟩, s₁, hblock, h⟩ := bind_ok h
      have hgrows := block_grows env ⟨roleOf env keyword.name, ps, body, span⟩
        (fun hs => sequence_grows body (fun _ => rfl) hs) hblock
      have := (hgrows.trans env (hrest hgrows.1 h)).withPending env s.pending s'.pending
      rw [List.length_append] at this
      exact this
    | _ =>
      obtain ⟨⟨⟩, s₁, hargument, h⟩ := bind_ok h
      obtain ⟨r, hargument⟩ := asValue_ok env hargument
      have hgrows := hvalue hargument
      exact (hgrows.trans env (hrest hgrows.1 h)).withPending env s.pending s'.pending

theorem sequence_grows (body : Sequence) {parameters : List Ident} {whenEmpty : Compile Unit}
    {operations : List Operation} {s s' : State}
    (hempty : ∀ s, whenEmpty s =
      .ok () (s.withDraft (s.current.draft.runOperations operations)))
    (h : sequence env whenEmpty body s = .ok () s') :
    body.Grows env parameters operations s s' := by
  obtain ⟨temporaries, ss, span⟩ := body
  intro top rest hs htop
  obtain ⟨⟨⟩, s₁, hdeclare, h⟩ := bind_ok h
  obtain ⟨top', hdeclares, hs₁⟩ := declareTemporaries_ok env hs htop hdeclare
  have hdeclared :
      Emits env s s₁ (.operations (Operation.declarations env temporaries)) [] [] [] := by
    rw [hs₁]
    exact (Emits.operations env s _).forget env s.scopes ⟨top' :: rest⟩ s.pending s.pending
  have hscopes : s₁.scopes = ⟨top' :: rest⟩ := by rw [hs₁]; rfl
  cases ss with
  | nil =>
    obtain ⟨⟨⟩, s₂, hline, h⟩ := bind_ok h
    cases hline
    obtain ⟨⟨⟩, s₂, hanswer, h⟩ := bind_ok h
    rw [hempty] at hanswer
    cases hanswer
    cases h
    have hline := Emits.operations env s₁ (.line span.line :: operations)
    exact ⟨⟨top', hscopes⟩, _, _,
      hdeclared.trans env (hline.trans env (Emits.operations env _ [.areturn]))⟩
  | cons first others =>
    obtain ⟨⟨⟩, s₂, hstatements, h⟩ := bind_ok h
    cases h
    have hlookup (name : String) : s₁.scopes.resolve name = lookup parameters temporaries name := by
      rw [hscopes]
      exact hdeclares.resolve_eq name
    obtain ⟨hkept, methods, files, hemits⟩ := statements_grows (first :: others) hlookup hstatements
    have hbody := hemits.trans env (Emits.operations env _ [.areturn])
    rw [List.append_nil] at hbody
    exact ⟨⟨top', hkept.trans hscopes⟩, _, _, hdeclared.trans env hbody⟩

theorem statements_grows (ss : List Statement) {resolve : String → Resolution} {s s' : State}
    (hresolve : ∀ name, s.scopes.resolve name = resolve name)
    (h : statements env ss s = .ok () s') :
    Grows env s s' (statementsPlan env resolve ss) (statementBlocks env ss) := by
  cases ss with
  | nil =>
    cases h
    exact Grows.operations env rfl
  | cons statement rest =>
    obtain ⟨-, s₁, hstatement, h⟩ := statements_cons_ok env h
    have hgrows := statement_grows statement hresolve hstatement
    exact hgrows.trans env (statements_grows rest (by simpa [hgrows.1] using hresolve) h)

theorem statement_grows (statement : Statement) {resolve : String → Resolution} {isLast : Bool}
    {s s' : State}
    (hresolve : ∀ name, s.scopes.resolve name = resolve name)
    (h : Compile.statement env isLast statement s = .ok () s') :
    Grows env s s' (statement.plan env resolve isLast) (statement.blocks env) := by
  cases statement with
  | expression value =>
    refine statementWith_grows env (fun s₁ s₂ hscopes haction => ?_) h
    obtain ⟨r, hvalue⟩ := asValue_ok env haction
    exact (receiver_grows value (by simpa [hscopes] using hresolve) hvalue).2
  | answer value span =>
    refine statementWith_grows env (fun s₁ s₂ hscopes haction => ?_) h
    obtain ⟨⟨⟩, s₃, hline, haction⟩ := bind_ok haction
    cases hline
    obtain ⟨⟨⟩, s₄, hvalue, haction⟩ := bind_ok haction
    cases haction
    obtain ⟨r, hvalue⟩ := asValue_ok env hvalue
    have hgrows := (receiver_grows
      (s := s₁.withDraft (s₁.current.draft.step (.line span.line))) value
      (by simpa [State.withDraft, hscopes] using hresolve) hvalue).2
    exact (Grows.operations env rfl).trans env (hgrows.andOperations env rfl)

end

/-- The name of each block's method, in the order of completion. -/
def Compile.Generated.names (g : Generated) (i : Nat) : String :=
  (g.blocks[i]?.map Method.name).getD ""

theorem Compile.Generated.agree (g : Generated) : Agree g.names 0 g.blocks := by
  intro i m hm
  simp [Generated.names, hm]

structure Compile.Generated.Outlined (g : Generated) (script : Script) : Prop where
  access : g.sendMessages.access = Access.isProtected
  name : g.sendMessages.name = "sendMessages"
  descriptor : g.sendMessages.descriptor = env.library.scriptDescriptor
  body :
    let code := script.body.plan env [] [.load 1] g.names 0
    (code.run env (env.method env.scriptLocals)).finish = .ok g.sendMessages.body
  blocks : Blocks env g.names 0 (script.body.blocks env) g.blocks g.markers
  nodup : (g.blocks.map Method.name).Nodup
  unreserved : ∀ m ∈ g.blocks, m.name ∉ BlockName.reserved
  legal : ∀ m ∈ g.blocks, BlockName.isLegal m.name = true

theorem generate_outlined {script : Script} {g : Generated} (h : generate env script = .ok g) :
    g.Outlined env script := by
  obtain ⟨s, body, hsequence, hfinish, hg⟩ := generate_ok env h
  have hgrows : script.body.Grows env [] [.load 1] _ s :=
    sequence_grows env script.body (fun _ => rfl) hsequence
  obtain ⟨-, methods, files, hemits⟩ := hgrows {} [] rfl Scope.declares_empty
  have hblocks : s.blocks.toList = methods := hemits.blocks
  have hmarkers : s.markers.toList = files := hemits.markers
  rw [hblocks, hmarkers] at hg
  have hagree : Agree g.names 0 methods := by
    have := g.agree
    rwa [hg] at this ⊢
  refine ⟨by rw [hg], by rw [hg], by rw [hg], ?_, ?_, ?_, ?_, ?_⟩
  · have hdraft : s.current.draft =
        (script.body.plan env [] [.load 1] g.names 0).run env (env.method env.scriptLocals) :=
      hemits.draft g.names hagree
    rw [hdraft] at hfinish
    rw [hg] at hfinish ⊢
    exact hfinish
  · rw [hg] at hagree ⊢
    exact hemits.compiled _ hagree
  · rw [hg]
    exact hemits.nodup
  · intro m hm hr
    rw [hg] at hm
    exact hemits.fresh m hm (Std.HashSet.mem_ofList.2 (by simpa using hr))
  · rw [hg]
    exact hemits.legal

namespace Compile.Generated.Outlined

variable {env} {script : Script} {g : Generated} (h : g.Outlined env script)

include h

theorem compiled {i : Nat} {literal : BlockLiteral} {method : Method}
    (hl : (script.body.blocks env)[i]? = some literal) (hm : g.blocks[i]? = some method) :
    literal.Compiled env g.names i method := by
  have hcompiled := h.blocks.compiled env hl hm
  rwa [Nat.zero_add] at hcompiled

theorem exists_compiled {method : Method} (hm : method ∈ g.blocks) :
    ∃ literal ∈ script.body.blocks env, ∃ i, literal.Compiled env g.names i method := by
  obtain ⟨i, hi⟩ := List.mem_iff_getElem?.1 hm
  obtain ⟨hlt, -⟩ := List.getElem?_eq_some_iff.1 hi
  rw [h.blocks.length_eq] at hlt
  exact ⟨_, List.getElem_mem hlt, i, h.compiled (List.getElem?_eq_getElem hlt) hi⟩

end Compile.Generated.Outlined

end SmalltalkJvm
