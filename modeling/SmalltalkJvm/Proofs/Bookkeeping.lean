import SmalltalkJvm.Proofs.UnitLimits

/-! # The compiler's stacks are kept in balance

While a script is compiled, scopes, keyword messages, waiting methods and open regions are kept on
stacks. Every expression and every block leaves them as it found them, but for the markers that it
attaches to the innermost region. So the compiler never finds one of its stacks empty where
something should be on it, nor a region left open at the end of a method, whatever the script.
-/

namespace SmalltalkJvm

open Compile

def InternalFault.imbalances : List InternalFault :=
  [.regionLeftOpen, .noEnclosingMethod, .noOpenRegion, .answerOutsideStatement,
    .declarationOutsideScope]

example : InternalFault.imbalances.map InternalFault.text =
    ["protected region left open at end of method", "no enclosing method to resume",
      "no protected region to close", "non-local return outside any statement",
      "declaration outside any scope"] := rfl

def CompileError.IsImbalance (e : CompileError) : Prop :=
  ∃ fault ∈ InternalFault.imbalances, e.cause = .internal fault

theorem not_isImbalance_of_ne {e : CompileError} (h : ∀ fault, e.cause ≠ .internal fault) :
    ¬e.IsImbalance := by
  rintro ⟨fault, -, hcause⟩
  exact h fault hcause

theorem not_isImbalance_internal {fault : InternalFault} {span : Span}
    (h : fault ∉ InternalFault.imbalances) : ¬(CompileError.internal fault span).IsImbalance := by
  rintro ⟨fault', hmem, hcause⟩
  cases hcause
  exact h hmem

theorem not_isImbalance_ofDraft (fault : DraftFault) (span : Span) :
    ¬(CompileError.ofDraft fault span).IsImbalance :=
  not_isImbalance_internal (by simp [InternalFault.imbalances])

/-- The stacks are as before, but for markers attached to the innermost region. -/
structure State.Balanced (s s' : State) : Prop where
  scopes : s'.scopes = s.scopes
  pending : s'.pending = s.pending
  suspended : s'.suspended = s.suspended
  regions : ∃ markers, s'.current.regions = attach markers s.current.regions

namespace State.Balanced

theorem trans {s s₁ s' : State} (h : s.Balanced s₁) (k : s₁.Balanced s') : s.Balanced s' := by
  obtain ⟨first, hfirst⟩ := h.regions
  obtain ⟨second, hsecond⟩ := k.regions
  exact ⟨k.scopes.trans h.scopes, k.pending.trans h.pending, k.suspended.trans h.suspended,
    first ++ second, by rw [hsecond, hfirst, attach_append]⟩

theorem withDraft (s : State) (d : Draft) : s.Balanced (s.withDraft d) :=
  ⟨rfl, rfl, rfl, [], by simp [State.withDraft]⟩

/-- A region that is open stays open, with more markers perhaps. -/
theorem region {s s' : State} (h : s.Balanced s') {region : Region} {rest : List Region}
    (hs : s.current.regions = region :: rest) :
    ∃ region', s'.current.regions = region' :: rest := by
  obtain ⟨markers, hmarkers⟩ := h.regions
  rw [hmarkers, hs]
  exact ⟨_, rfl⟩

theorem regions_ne_nil {s s' : State} (h : s.Balanced s') (hs : s.current.regions ≠ []) :
    s'.current.regions ≠ [] := by
  obtain ⟨region, rest, hregions⟩ := List.exists_cons_of_ne_nil hs
  obtain ⟨region', hregions'⟩ := h.region hregions
  simp [hregions']

theorem regions_eq_nil {s s' : State} (h : s.Balanced s') (hs : s.current.regions = []) :
    s'.current.regions = [] := by
  obtain ⟨markers, hmarkers⟩ := h.regions
  rw [hmarkers, hs]
  rfl

end State.Balanced

namespace Compile

/-- An action that keeps the balance, and fails for other reasons only. If it may attach a marker,
it has to be inside a region for that. -/
structure Keeps {α : Type} (inside : Prop) (a : Compile α) : Prop where
  balanced {s s' : State} {x : α} (h : a s = .ok x s') : s.Balanced s'
  fails {s s' : State} {e : CompileError} (h : a s = .error e s')
    (hs : inside → s.current.regions ≠ []) : ¬e.IsImbalance

/-- An action that changes nothing but the draft, and fails for other reasons than an imbalance. -/
def Drafts {α : Type} (a : Compile α) : Prop :=
  ∀ s, ∃ d, (∃ x, a s = .ok x (s.withDraft d)) ∨
    ∃ e, a s = .error e (s.withDraft d) ∧ ¬e.IsImbalance

section

variable {α β : Type} {inside : Prop}

namespace Drafts

theorem total {a : Compile α} (h : ∀ s, ∃ x d, a s = .ok x (s.withDraft d)) : Drafts a := by
  intro s
  obtain ⟨x, d, hd⟩ := h s
  exact ⟨d, .inl ⟨x, hd⟩⟩

/-- An action that reads the state only. -/
theorem read {a : Compile α} (h : ∀ s, ∃ x, a s = .ok x s) : Drafts a :=
  total fun s => by
    obtain ⟨x, hx⟩ := h s
    exact ⟨x, s.current.draft, hx⟩

protected theorem pure (x : α) : Drafts (pure x) := read fun _ => ⟨x, rfl⟩

protected theorem throw {e : CompileError} (he : ¬e.IsImbalance) : Drafts (throw e : Compile α) :=
  fun s => ⟨s.current.draft, .inr ⟨e, rfl, he⟩⟩

theorem emit (step : Draft.Step) : Drafts (emit step) := total fun _ => ⟨(), _, rfl⟩

protected theorem bind {a : Compile α} {f : α → Compile β} (ha : Drafts a)
    (hf : ∀ x, Drafts (f x)) : Drafts (a >>= f) := by
  intro s
  obtain ⟨d, ⟨x, hx⟩ | ⟨e, he, hsound⟩⟩ := ha s
  · rw [bind_of_ok hx]
    exact hf x (s.withDraft d)
  · exact ⟨d, .inr ⟨e, bind_of_error he _, hsound⟩⟩

theorem check {p : Prop} [Decidable p] {a : Compile α} {e : CompileError} (he : ¬e.IsImbalance)
    (h : Drafts a) :
    Drafts (do
      if p then throw e
      a) := by
  split_ifs
  · exact .bind (.throw he) fun _ => h
  · exact h

theorem ofExcept {x : Except CompileError α} (h : ∀ e, x = .error e → ¬e.IsImbalance) :
    Drafts (ofExcept x) := by
  cases x with
  | error e => exact .throw (h e rfl)
  | ok a => exact .pure a

end Drafts

namespace Keeps

/-- What is said of every outcome. -/
theorem of_cases {a : Compile α} (h : ∀ s, (∃ x s', a s = .ok x s' ∧ s.Balanced s') ∨
    ∃ e s', a s = .error e s' ∧ ¬e.IsImbalance) : Keeps inside a where
  balanced {s s' x} hx := by
    rcases h s with ⟨x', s₁, hs₁, hbalanced⟩ | ⟨e, s₁, hs₁, -⟩
    · rw [hs₁] at hx
      cases hx
      exact hbalanced
    · rw [hs₁] at hx
      cases hx
  fails {s s' e} he _ := by
    rcases h s with ⟨x', s₁, hs₁, -⟩ | ⟨e, s₁, hs₁, hsound⟩
    · rw [hs₁] at he
      cases he
    · rw [hs₁] at he
      cases he
      exact hsound

theorem drafts {a : Compile α} (h : Drafts a) : Keeps inside a :=
  of_cases fun s => by
    obtain ⟨d, ⟨x, hx⟩ | ⟨e, he, hsound⟩⟩ := h s
    · exact .inl ⟨x, _, hx, .withDraft s d⟩
    · exact .inr ⟨e, _, he, hsound⟩

protected theorem pure (x : α) : Keeps inside (pure x) := .drafts (.pure x)

protected theorem throw {e : CompileError} (he : ¬e.IsImbalance) :
    Keeps inside (throw e : Compile α) :=
  .drafts (.throw he)

theorem emit (step : Draft.Step) : Keeps inside (emit step) := .drafts (.emit step)

/-- An action that never fails. -/
theorem total {a : Compile α} (h : ∀ s, ∃ x s', a s = .ok x s' ∧ s.Balanced s') :
    Keeps inside a :=
  of_cases fun s => .inl (h s)

/-- An action that changes nothing but the draft. -/
theorem draft {a : Compile α} (h : ∀ s, ∃ x d, a s = .ok x (s.withDraft d)) : Keeps inside a :=
  .drafts (.total h)

protected theorem bind {a : Compile α} {f : α → Compile β} (ha : Keeps inside a)
    (hf : ∀ x, Keeps inside (f x)) : Keeps inside (a >>= f) where
  balanced h := by
    obtain ⟨x, s₁, hx, h⟩ := bind_ok h
    exact (ha.balanced hx).trans ((hf x).balanced h)
  fails h hs := by
    rcases bind_error h with hx | ⟨x, s₁, hx, h⟩
    · exact ha.fails hx hs
    · exact (hf x).fails h fun hi => (ha.balanced hx).regions_ne_nil (hs hi)

theorem check {p : Prop} [Decidable p] {a : Compile α} {e : CompileError} (he : ¬e.IsImbalance)
    (h : Keeps inside a) :
    Keeps inside (do
      if p then throw e
      a) := by
  split_ifs
  · exact .bind (.throw he) fun _ => h
  · exact h

end Keeps

end

variable (env : Env) {inside : Prop}

theorem drafts_checkArity (selector : String) (arity : Nat) (span : Span) :
    Drafts (checkArity selector arity span) := by
  unfold checkArity
  split_ifs
  · exact .throw (not_isImbalance_of_ne (by simp))
  · exact .pure ()

theorem drafts_dispatch (selector : String) (arity : Nat) (r : Receiver) (span : Span) :
    Drafts (dispatch env selector arity r span) :=
  .bind (drafts_checkArity selector arity span) fun _ => .total fun _ => ⟨(), _, rfl⟩

theorem drafts_directiveIndex (name text : String) (span : Span) :
    Drafts (directiveIndex name text span) := by
  unfold directiveIndex
  cases index? text with
  | none => exact .throw (not_isImbalance_of_ne (by simp))
  | some n => exact .pure n

theorem drafts_directiveInvoke (name : String) (op : Opcode) (method : MemberRef) (span : Span) :
    Drafts (directiveInvoke name op method span) := by
  unfold directiveInvoke
  cases MethodDescriptor.parse method.descriptor with
  | error e => exact .throw (not_isImbalance_of_ne (by simp))
  | ok descriptor =>
    exact .bind (.read fun _ => ⟨_, rfl⟩) fun available =>
      .check (not_isImbalance_of_ne (by simp)) (.check (not_isImbalance_of_ne (by simp)) (.emit _))

theorem drafts_directiveField (name : String) (field : MemberRef) (span : Span) :
    Drafts (directiveField name field span) := by
  unfold directiveField
  cases FieldType.parse field.descriptor with
  | error e => exact .throw (not_isImbalance_of_ne (by simp))
  | ok t =>
    dsimp only
    split_ifs
    · exact .emit _
    · exact .throw (not_isImbalance_of_ne (by simp))

theorem drafts_directiveLoad (name : String) (slot : UInt16) (span : Span) :
    Drafts (directiveLoad name slot span) := by
  refine .bind (.read fun s => ⟨s, rfl⟩) fun state => ?_
  dsimp only
  split_ifs
  · exact .emit _
  · exact .throw (not_isImbalance_of_ne (by simp))

theorem drafts_directive (name : String) (kind : Directive) (arguments : List String)
    (span : Span) : Drafts (directive env name kind arguments span) := by
  unfold directive
  split
  · exact .bind (drafts_directiveIndex _ _ _) fun n => .total fun _ => ⟨(), _, rfl⟩
  · exact .bind (drafts_directiveIndex _ _ _) fun n => drafts_directiveLoad _ _ _
  · exact drafts_directiveInvoke _ _ _ _
  · exact drafts_directiveInvoke _ _ _ _
  · exact drafts_directiveField _ _ _
  · exact .bind (drafts_directiveIndex _ _ _) fun n => .total fun _ => ⟨(), _, rfl⟩
  · exact .throw (not_isImbalance_internal (by simp [InternalFault.imbalances]))

theorem not_isImbalance_of_directiveArgument {name : String} {parts : List KeywordPart}
    {e : CompileError} (h : parts.mapM (directiveArgument name) = .error e) : ¬e.IsImbalance := by
  obtain ⟨part, -, hpart⟩ := except_mapM_error h
  unfold directiveArgument at hpart
  split at hpart <;> cases hpart
  exact not_isImbalance_of_ne (by simp)

theorem drafts_escape (parts : List KeywordPart) (span : Span) :
    Drafts (escape env parts span) := by
  unfold escape
  dsimp only
  cases Directive.ofSelector? (selectorOf parts) with
  | none => exact .throw (not_isImbalance_of_ne (by simp))
  | some kind =>
    exact .bind (.ofExcept fun e => not_isImbalance_of_directiveArgument) fun arguments =>
      .bind (.emit _) fun _ => drafts_directive env _ kind arguments span

theorem drafts_pseudo (word : Pseudo) (span : Span) : Drafts (pseudo env word span) := by
  cases word <;> exact .total fun _ => ⟨_, _, rfl⟩

theorem drafts_reference (name : String) (span : Span) : Drafts (reference env name span) := by
  refine .bind (.read fun _ => ⟨_, rfl⟩) fun resolution => ?_
  split_ifs
  · exact .pure _
  · cases resolution <;> exact .total fun _ => ⟨_, _, rfl⟩

theorem drafts_assignable (target : Ident) : Drafts (assignable target) := by
  refine .bind (.read fun _ => ⟨_, rfl⟩) fun resolution => ?_
  cases resolution with
  | temporary slot => exact .pure slot
  | argument slot => exact .throw (not_isImbalance_of_ne (by simp))
  | unresolved => exact .throw (not_isImbalance_of_ne (by simp))

theorem drafts_checkParts (parts : List KeywordPart) (span : Span) :
    Drafts (checkParts parts span) := by
  cases parts with
  | nil => exact .throw (not_isImbalance_internal (by simp [InternalFault.imbalances]))
  | cons part rest =>
    unfold checkParts
    dsimp only
    split
    · exact .throw (not_isImbalance_internal (by simp [InternalFault.imbalances]))
    · exact .pure ()

theorem drafts_rejectEscape (r : Receiver) (selector : Ident) :
    Drafts (rejectEscape env r selector) := by
  unfold rejectEscape
  split_ifs
  · exact .throw (not_isImbalance_of_ne (by simp))
  · exact .pure ()

theorem keeps_asValue (span : Span) {expression : Compile Receiver} (h : Keeps inside expression) :
    Keeps inside (asValue env span expression) := by
  refine .bind h fun r => ?_
  split_ifs
  · exact .throw (not_isImbalance_of_ne (by simp))
  · exact .pure ()

/-- The region that an action is put into is the one that is closed behind it, and inside it the
action does not fail for want of a region. -/
theorem keeps_region {α : Type} {action : Compile Unit} {after : Compile α} (h : Keeps True action)
    (hafter : Keeps inside after) (span : Span) :
    Keeps inside (do
      openRegion span
      action
      closeRegion env
      after) := by
  have hopen (s : State) : openRegion span s = .ok () (s.opened span) := rfl
  have hclose {s s₁ : State} (ha : action (s.opened span) = .ok () s₁) :
      ∃ s₂, closeRegion env s₁ = .ok () s₂ ∧ s.Balanced s₂ := by
    have hbalanced := h.balanced ha
    obtain ⟨region, hregion⟩ := hbalanced.region (s := s.opened span) rfl
    exact ⟨_, closeRegion_eq env hregion, hbalanced.scopes, hbalanced.pending,
      hbalanced.suspended, [], by simp⟩
  constructor
  · intro s s' x hs
    rw [bind_of_ok (hopen s)] at hs
    obtain ⟨⟨⟩, s₁, ha, hs⟩ := bind_ok hs
    obtain ⟨s₂, hs₂, hbalanced⟩ := hclose ha
    rw [bind_of_ok hs₂] at hs
    exact hbalanced.trans (hafter.balanced hs)
  · intro s s' e hs hinside
    rw [bind_of_ok (hopen s)] at hs
    rcases bind_error hs with ha | ⟨⟨⟩, s₁, ha, hs⟩
    · exact h.fails ha fun _ => by simp [State.opened]
    · obtain ⟨s₂, hs₂, hbalanced⟩ := hclose ha
      rw [bind_of_ok hs₂] at hs
      exact hafter.fails hs fun hi => hbalanced.regions_ne_nil (hinside hi)

theorem keeps_inRegion (wanted : Bool) (span : Span) {action : Compile Unit}
    (h : Keeps True action) : Keeps True (inRegion env wanted span action) := by
  cases wanted with
  | false => exact h
  | true =>
    have hregion : Keeps True _ := keeps_region env h (.pure ()) span
    rwa [bind_pure] at hregion

theorem keeps_statementWith (isLast : Bool) (span : Span) {body : Compile Unit}
    (h : Keeps True body) : Keeps inside (statementWith env isLast span body) :=
  .bind (.drafts (.read fun _ => ⟨_, rfl⟩)) fun base =>
    keeps_region env h (.draft fun s => ⟨(), _, settle_ok env isLast base s⟩) span

theorem not_isImbalance_of_finish {frame : MethodFrame} {span : Span} {e : CompileError}
    (hr : frame.regions = []) (h : frame.finish span = .error e) : ¬e.IsImbalance := by
  simp only [MethodFrame.finish, hr] at h
  split at h
  · cases h
  · cases h
    exact not_isImbalance_ofDraft _ _

/-- Declarations change the innermost scope, which has to be there. -/
theorem declare_cases (kind : SlotKind) (ident : Ident) {s : State} (hs : s.scopes.scopes ≠ []) :
    (∃ scopes, declare kind ident s = .ok () { s with scopes } ∧ scopes.scopes ≠ [] ∧
        scopes.pop = s.scopes.pop) ∨
      ∃ e, declare kind ident s = .error e s ∧ ¬e.IsImbalance := by
  obtain ⟨top, rest, htop⟩ := List.exists_cons_of_ne_nil hs
  have hscopes : s.scopes = ⟨top :: rest⟩ := by
    rw [← htop]
  simp only [declare, hscopes, ScopeStack.conflict?, ScopeStack.bind]
  cases hc : top.conflict? ident.name ident.span with
  | none => exact .inl ⟨_, rfl, by simp, rfl⟩
  | some e =>
    refine .inr ⟨e, rfl, ?_⟩
    unfold Scope.conflict? at hc
    split_ifs at hc
    cases hc
    exact not_isImbalance_of_ne (by simp)

theorem declareAll_cases (kind : SlotKind) (idents : List Ident) {s : State}
    (hs : s.scopes.scopes ≠ []) :
    (∃ scopes, idents.forM (declare kind) s = .ok () { s with scopes } ∧ scopes.scopes ≠ [] ∧
        scopes.pop = s.scopes.pop) ∨
      ∃ e s', idents.forM (declare kind) s = .error e s' ∧ ¬e.IsImbalance := by
  induction idents generalizing s with
  | nil => exact .inl ⟨s.scopes, rfl, hs, rfl⟩
  | cons ident idents ih =>
    have hunfold : (ident :: idents).forM (declare kind) s =
        (declare kind ident >>= fun _ => idents.forM (declare kind)) s := rfl
    rw [hunfold]
    rcases declare_cases kind ident hs with ⟨scopes, hfirst, hscopes, hpop⟩ | ⟨e, hfirst, he⟩
    · rw [bind_of_ok hfirst]
      rcases ih (s := { s with scopes }) hscopes with ⟨scopes', hrest, hscopes', hpop'⟩ | hrest
      · exact .inl ⟨scopes', hrest, hscopes', hpop'.trans hpop⟩
      · exact .inr hrest
    · exact .inr ⟨e, s, bind_of_error hfirst _, he⟩

/-- The sequence of a method is compiled where the method has a scope and no region yet. It may add
to the scope and leaves no region open. -/
structure Fills (a : Compile Unit) : Prop where
  filled {s s' : State} (h : a s = .ok () s') (hs : s.scopes.scopes ≠ [])
    (hr : s.current.regions = []) :
    s'.scopes.pop = s.scopes.pop ∧ s'.pending = s.pending ∧ s'.suspended = s.suspended ∧
      s'.current.regions = []
  fails {s s' : State} {e : CompileError} (h : a s = .error e s') (hs : s.scopes.scopes ≠ [])
    (hr : s.current.regions = []) : ¬e.IsImbalance

theorem declareTemporaries_cases (temporaries : List Ident) {s : State}
    (hs : s.scopes.scopes ≠ []) :
    (∃ scopes d, declareTemporaries env temporaries s = .ok () ({ s with scopes }.withDraft d) ∧
        scopes.pop = s.scopes.pop) ∨
      ∃ e s', declareTemporaries env temporaries s = .error e s' ∧ ¬e.IsImbalance := by
  cases temporaries with
  | nil => exact .inl ⟨s.scopes, s.current.draft, rfl, rfl⟩
  | cons first rest =>
    have hall := declareAll_cases .temporary (first :: rest) hs
    rcases hall with ⟨scopes, hdeclare, -, hpop⟩ | ⟨e, s', hdeclare, he⟩
    · refine .inl ⟨scopes, _, (bind_of_ok hdeclare _).trans rfl, hpop⟩
    · exact .inr ⟨e, s', bind_of_error hdeclare _, he⟩

theorem fills_declared {k : Compile Unit} (h : Keeps False k) (temporaries : List Ident) :
    Fills (do
      declareTemporaries env temporaries
      k) := by
  constructor
  · intro s s' hk hs hr
    rcases declareTemporaries_cases env temporaries hs with ⟨scopes, d, hd, hpop⟩ | ⟨e, s₁, hd, -⟩
    · rw [bind_of_ok hd] at hk
      have hbalanced := h.balanced hk
      refine ⟨?_, hbalanced.pending, hbalanced.suspended, hbalanced.regions_eq_nil hr⟩
      rw [hbalanced.scopes]
      exact hpop
    · rw [bind_of_error hd] at hk
      cases hk
  · intro s s' e hk hs hr
    rcases declareTemporaries_cases env temporaries hs with ⟨scopes, d, hd, hpop⟩ | ⟨e', s₁, hd, he⟩
    · rw [bind_of_ok hd] at hk
      exact h.fails hk False.elim
    · rw [bind_of_error hd] at hk
      cases hk
      exact he

theorem keeps_addMarker (block : String) (span : Span) :
    Keeps inside (addMarker env block span) := by
  refine .bind (.drafts (.ofExcept fun e he => ?_)) fun file =>
    .bind (.total fun s => ⟨(), _, rfl, rfl, rfl, rfl, [], by simp⟩) fun _ => .pure _
  unfold markerClass at he
  split at he
  · cases he
    exact not_isImbalance_ofDraft _ _
  · cases he

theorem keeps_attachMarker (marker : String) (span : Span) :
    Keeps True (attachMarker marker span) := by
  constructor
  · intro s s' x h
    rw [attachMarker_ok h]
    exact ⟨rfl, rfl, rfl, [marker], rfl⟩
  · intro s s' e h hs
    obtain ⟨region, rest, hregions⟩ := List.exists_cons_of_ne_nil (hs trivial)
    simp only [attachMarker, hregions] at h
    cases h

theorem keeps_pushBlock (role : BlockRole) (answers : Bool) (name : String) (span : Span) :
    Keeps True (pushBlock env role answers name span) := by
  refine .bind (.emit _) fun _ => .bind (.emit _) fun _ => .bind (.emit _) fun _ => ?_
  split
  · exact .emit _
  · exact .bind (keeps_addMarker env name span) fun marker => .bind (.emit _) fun _ =>
      .bind (.emit _) fun _ => keeps_attachMarker marker span
  · exact .emit _

theorem leaveMethod_cases {s : State} {outer : MethodFrame} {rest : List MethodFrame} (span : Span)
    (hs : s.suspended = outer :: rest) (hr : s.current.regions = []) :
    (∃ body, leaveMethod span s = .ok body { s with current := outer, suspended := rest }) ∨
      ∃ e s', leaveMethod span s = .error e s' ∧ ¬e.IsImbalance := by
  simp only [leaveMethod, hs]
  cases hfinish : s.current.finish span with
  | ok body => exact .inl ⟨body, rfl⟩
  | error e => exact .inr ⟨e, _, rfl, not_isImbalance_of_finish hr hfinish⟩

/-- What is done in a method of its own leaves the method around it as it was. -/
theorem keeps_method {a : Compile Unit} (h : Fills a) (draft : Draft) (parameters : List Ident)
    (span : Span) :
    Keeps inside (do
      enterMethod draft
      pushScope
      parameters.forM (declare .argument)
      a
      popScope
      leaveMethod span) := by
  refine .of_cases fun s => ?_
  obtain ⟨entered, hentered⟩ : ∃ entered : State, entered =
      { s with
        current := { draft }
        suspended := s.current :: s.suspended
        scopes := s.scopes.push } := ⟨_, rfl⟩
  have henter : (enterMethod draft >>= fun _ => pushScope) s = .ok () entered := by
    rw [hentered]
    rfl
  have hscopes : entered.scopes.scopes ≠ [] := by simp [hentered, ScopeStack.push]
  rw [← bind_assoc, bind_of_ok henter]
  rcases declareAll_cases .argument parameters hscopes with
    ⟨scopes, hdeclare, hnonempty, hpop⟩ | ⟨e, s', hdeclare, he⟩
  · rw [bind_of_ok hdeclare]
    have hnone : entered.current.regions = [] := by rw [hentered]
    cases ha : a { entered with scopes } with
    | error e s' => exact .inr ⟨e, s', bind_of_error ha _, h.fails ha hnonempty hnone⟩
    | ok x s₁ =>
      obtain ⟨hpopped, hpending, hsuspended, hregions⟩ := h.filled ha hnonempty hnone
      rw [bind_of_ok ha, bind_of_ok (show popScope s₁ = .ok () _ from rfl)]
      rcases leaveMethod_cases span (s := { s₁ with scopes := s₁.scopes.pop })
        (hsuspended.trans (by rw [hentered])) hregions with ⟨body, hleave⟩ | ⟨e, s', hleave, he⟩
      · refine .inl ⟨body, _, hleave, ?_, ?_, rfl, [], by simp⟩
        · change s₁.scopes.pop = s.scopes
          rw [hpopped, hpop, hentered]
          rfl
        · exact hpending.trans (by rw [hentered])
      · exact .inr ⟨e, s', hleave, he⟩
  · exact .inr ⟨e, s', bind_of_error hdeclare _, he⟩

theorem keeps_block {role : BlockRole} {parameters : List Ident} {answers : Bool} {span : Span}
    {sequence : Compile Unit} (h : Fills sequence) :
    Keeps True (block env role parameters answers span sequence) := by
  have hname : Keeps True nameBlock := .total fun s => ⟨_, _, rfl, rfl, rfl, rfl, [], by simp⟩
  have hblock : Keeps True (nameBlock >>= fun name => (do
      enterMethod (env.method env.blockLocals)
      pushScope
      parameters.forM (declare .argument)
      sequence
      popScope
      leaveMethod span) >>= fun body => (do
      modify fun s => { s with blocks := s.blocks.push ⟨Access.isPrivate ||| Access.isStatic |||
        Access.isSynthetic, name, env.library.blockDescriptor, body⟩ }
      pushBlock env role answers name span)) :=
    .bind hname fun name => .bind (keeps_method h _ parameters span) fun body =>
      .bind (.total fun s => ⟨(), _, rfl, rfl, rfl, rfl, [], by simp⟩) fun _ =>
      keeps_pushBlock env role answers name span
  simp only [bind_assoc] at hblock
  exact hblock

/-- An action between the start of a keyword message and its end may change the message, and else
keeps the balance. -/
structure KeepsBelow (a : Compile Unit) : Prop where
  balanced {s s' : State} (h : a s = .ok () s') :
    s'.pending.tail = s.pending.tail ∧ s.Balanced { s' with pending := s.pending }
  fails {s s' : State} {e : CompileError} (h : a s = .error e s')
    (hs : s.current.regions ≠ []) : ¬e.IsImbalance

theorem Keeps.below {a : Compile Unit} (h : Keeps True a) : KeepsBelow a where
  balanced ha := by
    have hbalanced := h.balanced ha
    exact ⟨by rw [hbalanced.pending], hbalanced.scopes, rfl, hbalanced.suspended,
      hbalanced.regions⟩
  fails ha hs := h.fails ha fun _ => hs

theorem KeepsBelow.bind {a b : Compile Unit} (ha : KeepsBelow a) (hb : KeepsBelow b) :
    KeepsBelow (do
      a
      b) where
  balanced h := by
    obtain ⟨⟨⟩, s₁, h₁, h₂⟩ := bind_ok h
    obtain ⟨htail₁, hbalanced₁⟩ := ha.balanced h₁
    obtain ⟨htail₂, hbalanced₂⟩ := hb.balanced h₂
    refine ⟨htail₂.trans htail₁, hbalanced₁.trans ⟨hbalanced₂.scopes, rfl, hbalanced₂.suspended,
      hbalanced₂.regions⟩⟩
  fails h hs := by
    rcases bind_error h with h₁ | ⟨⟨⟩, s₁, h₁, h₂⟩
    · exact ha.fails h₁ hs
    · exact hb.fails h₂ ((ha.balanced h₁).2.regions_ne_nil hs)

theorem keepsBelow_notePart (first : Bool) (part : KeywordPart) :
    KeepsBelow (notePart first part) := by
  have hmodify (f : PendingSend → PendingSend) : KeepsBelow (modifySend f) := by
    constructor
    · intro s s' h
      cases h
      refine ⟨?_, rfl, rfl, rfl, [], by simp⟩
      change (s.pending.modifyHead f).tail = s.pending.tail
      cases s.pending <;> rfl
    · intro s s' e h
      cases h
  refine (hmodify _).bind ?_
  split
  · exact hmodify _
  · exact (Keeps.pure ()).below

theorem keeps_keyword {arguments after : Compile Unit} (h : KeepsBelow arguments)
    (hafter : Keeps True after) (span : Span) :
    Keeps True (do
      openSend span
      arguments
      closeSend
      after) := by
  have hopen (s : State) :
      openSend span s = .ok () { s with pending := { span } :: s.pending } := rfl
  have hclose {s s₁ : State}
      (ha : arguments { s with pending := { span } :: s.pending } = .ok () s₁) :
      s.Balanced { s₁ with pending := s₁.pending.tail } := by
    obtain ⟨htail, hbalanced⟩ := h.balanced ha
    exact ⟨hbalanced.scopes, htail, hbalanced.suspended, hbalanced.regions⟩
  constructor
  · intro s s' x hs
    rw [bind_of_ok (hopen s)] at hs
    obtain ⟨⟨⟩, s₁, ha, hs⟩ := bind_ok hs
    rw [bind_of_ok (show closeSend s₁ = .ok () _ from rfl)] at hs
    exact (hclose ha).trans (hafter.balanced hs)
  · intro s s' e hs hinside
    rw [bind_of_ok (hopen s)] at hs
    rcases bind_error hs with ha | ⟨⟨⟩, s₁, ha, hs⟩
    · exact h.fails ha (hinside trivial)
    · rw [bind_of_ok (show closeSend s₁ = .ok () _ from rfl)] at hs
      exact hafter.fails hs fun _ => (hclose ha).regions_ne_nil (hinside trivial)

mutual

theorem keeps_receiver (e : Expr) : Keeps True (receiver env e) := by
  cases e with
  | literal kind text span => exact .draft fun _ => ⟨_, _, rfl⟩
  | pseudo word span => exact .drafts (drafts_pseudo env word span)
  | reference name span => exact .drafts (drafts_reference env name span)
  | block parameters body span =>
    exact .bind (keeps_block env (fills_sequence body (.draft fun _ => ⟨_, _, rfl⟩))) fun _ =>
      .pure _
  | send target m span =>
    exact .bind (keeps_inRegion env m.isKeyword span
      (.bind (keeps_receiver target) fun r => keeps_message r m)) fun _ => .pure _
  | cascade target messages span =>
    exact .check (not_isImbalance_internal (by simp [InternalFault.imbalances]))
      (.bind (keeps_receiver target) fun r => .bind (keeps_cascade r messages) fun _ => .pure _)
  | assign target value span =>
    exact .bind (.drafts (drafts_assignable target)) fun slot =>
      .bind (keeps_asValue env value.span (keeps_receiver value)) fun _ =>
      .bind (.draft fun _ => ⟨_, _, rfl⟩) fun _ => .pure _
  | paren inner span =>
    exact .bind (keeps_asValue env inner.span (keeps_receiver inner)) fun _ => .pure _
  | primitive number span =>
    exact .throw (not_isImbalance_internal (by simp [InternalFault.imbalances]))

theorem keeps_message (r : Receiver) (m : Message) : Keeps True (message env r m) := by
  cases m with
  | unary selector =>
    exact .drafts (.bind (drafts_rejectEscape env r selector) fun _ => drafts_dispatch env _ _ _ _)
  | binary selector argument span =>
    exact .bind (.drafts (drafts_rejectEscape env r selector)) fun _ =>
      .bind (keeps_asValue env argument.span (keeps_receiver argument)) fun _ =>
      .drafts (drafts_dispatch env _ _ _ _)
  | keyword parts span =>
    have harguments := keepsBelow_arguments true parts
    refine .bind (.drafts (drafts_checkParts parts span)) fun _ => ?_
    split_ifs
    · exact .drafts (drafts_escape env parts span)
    · exact .bind (.drafts (drafts_checkArity _ _ _)) fun _ =>
        keeps_keyword harguments (.drafts (drafts_dispatch env _ _ _ _)) span

theorem keeps_cascade (r : Receiver) (messages : List Message) :
    Keeps True (cascade env r messages) := by
  cases messages with
  | nil => exact .pure ()
  | cons m rest =>
    rw [cascade]
    have hm := keeps_message r m
    have hrest := keeps_cascade r rest
    split_ifs
    · exact .bind hm fun _ => hrest
    · exact .bind (.emit _) fun _ => .bind (keeps_inRegion env m.isKeyword m.span hm) fun _ =>
        .bind (.emit _) fun _ => hrest
    · exact .bind (keeps_inRegion env m.isKeyword m.span hm) fun _ => hrest

theorem keepsBelow_arguments (first : Bool) (parts : List KeywordPart) :
    KeepsBelow (arguments env first parts) := by
  cases parts with
  | nil => exact (Keeps.pure ()).below
  | cons part rest =>
    obtain ⟨keyword, argument⟩ := part
    rw [arguments]
    refine (keepsBelow_notePart first _).bind ?_
    have hrest := keepsBelow_arguments false rest
    cases argument with
    | block parameters body span =>
      exact (keeps_block env (fills_sequence body (.draft fun _ => ⟨_, _, rfl⟩))).below.bind hrest
    | _ => exact (keeps_asValue env _ (keeps_receiver _)).below.bind hrest

theorem fills_sequence (body : Sequence) {whenEmpty : Compile Unit} (h : Keeps False whenEmpty) :
    Fills (sequence env whenEmpty body) := by
  obtain ⟨temporaries, ss, span⟩ := body
  rw [sequence]
  have hss := keeps_statements ss
  refine fills_declared env ?_ temporaries
  dsimp only
  split_ifs
  · exact .bind (.emit _) fun _ => .bind h fun _ => .emit _
  · exact .bind hss fun _ => .emit _

theorem keeps_statements (ss : List Statement) : Keeps False (statements env ss) := by
  cases ss with
  | nil => exact .pure ()
  | cons statement rest =>
    rw [statements]
    exact .check (not_isImbalance_internal (by simp [InternalFault.imbalances]))
      (.bind (keeps_statement rest.isEmpty statement) fun _ => keeps_statements rest)

theorem keeps_statement (isLast : Bool) (statement : Statement) :
    Keeps False (Compile.statement env isLast statement) := by
  cases statement with
  | expression value =>
    exact keeps_statementWith env isLast value.span
      (keeps_asValue env value.span (keeps_receiver value))
  | answer value span =>
    exact keeps_statementWith env isLast span (.bind (.emit _) fun _ =>
      .bind (keeps_asValue env value.span (keeps_receiver value)) fun _ => .emit _)

end

theorem script_fails {s : Script} {e : CompileError} {s' : State}
    (h : script env s (State.initial env) = .error e s') : ¬e.IsImbalance := by
  have hfills : Fills (sequence env pushReceiver s.body) :=
    fills_sequence env s.body (.emit _)
  rw [script, bind_of_ok (show pushScope (State.initial env) = .ok () _ from rfl)] at h
  rcases bind_error h with h | ⟨⟨⟩, s₁, hsequence, h⟩
  · exact hfills.fails h (by simp [ScopeStack.push]) rfl
  · obtain ⟨-, -, -, hregions⟩ := hfills.filled hsequence (by simp [ScopeStack.push]) rfl
    rw [bind_of_ok (show popScope s₁ = .ok () _ from rfl)] at h
    rcases bind_error h with h | ⟨state, s₂, hget, h⟩
    · cases h
    · cases hget
      rcases bind_error h with h | ⟨body, s₃, -, h⟩
      · cases hfinish : MethodFrame.finish _ s.span with
        | ok body =>
          rw [hfinish] at h
          cases h
        | error e' =>
          rw [hfinish] at h
          cases h
          exact not_isImbalance_of_finish hregions hfinish
      · cases h

end Compile

/-- Whenever an expression or a block compiles, the stacks of scopes, keyword messages, waiting
methods and open regions are as before, but for markers in the innermost region; so no script, with
or without directives, makes the compiler fail because one of them is out of balance. -/
theorem compile_balanced (env : Env) :
    (∀ (e : Expr) (s s' : State),
        asValue env e.span (receiver env e) s = .ok () s' → s.Balanced s') ∧
      (∀ (role : BlockRole) (parameters : List Ident) (body : Sequence) (span : Span)
        (s s' : State), block env role parameters body.answers span
          (sequence env (pushNil env) body) s = .ok () s' → s.Balanced s') ∧
      ∀ (script : Script) (fault : InternalFault) (span : Span),
        fault ∈ InternalFault.imbalances → generate env script ≠ .error (.internal fault span) := by
  refine ⟨fun e s s' h => ?_, fun role parameters body span s s' h => ?_,
    fun script fault span hfault h => ?_⟩
  · exact (keeps_asValue env e.span (keeps_receiver env e)).balanced h
  · exact (keeps_block env (fills_sequence env body (.draft fun _ => ⟨_, _, rfl⟩))).balanced h
  · unfold generate at h
    split at h
    · cases h
    · rename_i e s' hscript
      cases h
      exact script_fails env hscript ⟨fault, hfault, rfl⟩

theorem balanced_of_sample :
    let opened := (State.initial Sample.env).opened Sample.span
    ∃ s', block Sample.env .value [] Sample.body.answers Sample.span
        (sequence Sample.env (pushNil Sample.env) Sample.body) opened = .ok () s' ∧
      opened.Balanced s' ∧
      generate Sample.env Sample.script ≠ .error (.internal .regionLeftOpen Sample.span) := by
  intro opened
  obtain ⟨-, hblock, hscript⟩ := compile_balanced Sample.env
  have hok : (EStateM.run' (fun _ => block Sample.env .value [] Sample.body.answers Sample.span
      (sequence Sample.env (pushNil Sample.env) Sample.body) opened) opened).isSome = true := by
    decide +kernel
  cases h : block Sample.env .value [] Sample.body.answers Sample.span
      (sequence Sample.env (pushNil Sample.env) Sample.body) opened with
  | error e s' =>
    rw [h] at hok
    cases hok
  | ok x s' => exact ⟨s', rfl, hblock _ _ _ _ _ _ h, hscript _ _ _ (by decide)⟩

end SmalltalkJvm
