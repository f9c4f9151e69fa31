import SmalltalkJvm.Proofs.Actions
import SmalltalkJvm.Proofs.Emission

/-! # Successful steps

What each step of the compiler has done to its state when it succeeds. Most steps add operations to
the draft; the others check something, open or close a scope, a method or a region, or choose a
name.
-/

namespace SmalltalkJvm

open Compile

variable (env : Env)

theorem ofExcept_ok {α : Type} {x : Except CompileError α} {a : α} {s s' : State}
    (h : ofExcept x s = .ok a s') : x = .ok a ∧ s' = s := by
  cases x <;> cases h
  exact ⟨rfl, rfl⟩

theorem discard_ok (n : Nat) (s : State) :
    Compile.discard n s =
      .ok () (s.withDraft (s.current.draft.runOperations (List.replicate n .discard))) := by
  induction n generalizing s with
  | zero => rfl
  | succ n ih =>
    change Compile.discard n (s.withDraft (s.current.draft.step .discard)) = _
    rw [ih]
    rfl

theorem settle_ok (isLast : Bool) (base : Nat) (s : State) :
    Compile.settle env isLast base s =
      .ok () (s.withDraft (s.current.draft.settle env isLast base)) := by
  change (if s.current.draft.reachable then (do
      let depth ← stackDepth
      if isLast then
        if depth = base then pushNil env
      else Compile.discard (depth - base))
    else pure () : Compile Unit) s = _
  simp only [Draft.settle, Draft.settling]
  cases hr : s.current.draft.reachable
  · rw [Draft.runOperations_of_unreachable hr]
    rfl
  · cases isLast
    · exact discard_ok _ s
    · change (if s.current.draft.stack.depth = base then pushNil env else pure ()) s = _
      by_cases hd : s.current.draft.stack.depth = base
      · simp only [hd, ↓reduceIte]
        rfl
      · simp only [hd, ↓reduceIte]
        rfl

theorem newLabels_ok (markers : List String) (s : State) :
    (markers.mapM fun marker => do return ((← newLabel), marker) :
        Compile (List (Label × String))) s =
      .ok (handlerLabels s.current.draft.labels.size markers)
        (s.withDraft (s.current.draft.run (markers.map fun _ => .label))) := by
  induction markers generalizing s with
  | nil => rfl
  | cons marker markers ih =>
    have hfirst : (do return ((← newLabel), marker) : Compile (Label × String)) s =
        .ok (s.current.draft.nextLabel, marker) (s.withDraft s.current.draft.addLabel) := rfl
    have hrest := ih (s.withDraft s.current.draft.addLabel)
    rw [List.mapM_cons]
    refine (bind_of_ok hfirst _).trans ((bind_of_ok hrest _).trans ?_)
    simp [State.withDraft, Draft.addLabel, handlerLabels, Draft.nextLabel, Draft.run_cons,
      Draft.step]
    rfl

theorem forIn_ok {α : Type} {f : α → Compile Unit} {g : α → List Draft.Step}
    (hf : ∀ x s, f x s = .ok () (s.withDraft (s.current.draft.run (g x)))) (xs : List α)
    (s : State) :
    (forIn xs PUnit.unit (fun x _ => do f x; return .yield PUnit.unit) : Compile PUnit) s =
      .ok () (s.withDraft (s.current.draft.run (xs.flatMap g))) := by
  induction xs generalizing s with
  | nil => rfl
  | cons x xs ih =>
    have hfirst : (do f x; return .yield PUnit.unit : Compile (ForInStep PUnit)) s =
        .ok (.yield PUnit.unit) (s.withDraft (s.current.draft.run (g x))) := bind_of_ok (hf x s) _
    rw [List.forIn_cons]
    refine (bind_of_ok hfirst _).trans ((ih _).trans ?_)
    rw [List.flatMap_cons, Draft.run_append]
    rfl

theorem size_rangeEnd (d : Draft) :
    (d.run [.label, .label, .mark ⟨d.labels.size⟩]).labels.size = d.labels.size + 2 := by
  have h := Draft.run_rangeEnd d ⟨0⟩ []
  simp only [List.map_nil, List.append_nil] at h
  simp [h]

theorem emitHandler_ok (span : Span) (handler : Label × String) (s : State) :
    emitHandler env span handler.1 handler.2 s =
      .ok () (s.withDraft (s.current.draft.run (Draft.handlerSteps env span handler))) := by
  rfl

theorem emitHandlers_ok (region : Region) (s : State) (hm : region.markers.toList ≠ []) :
    emitHandlers env region s = .ok () (s.withDraft
      (s.current.draft.closeRegion env region.start region.span region.markers.toList)) := by
  obtain ⟨d, hd⟩ : ∃ d, d = s.current.draft := ⟨_, rfl⟩
  obtain ⟨n, hn⟩ : ∃ n, n = d.labels.size := ⟨_, rfl⟩
  obtain ⟨handlers, hhandlers⟩ : ∃ x, x = handlerLabels (n + 2) region.markers.toList := ⟨_, rfl⟩
  have hlength : handlers.length = region.markers.toList.length := by
    rw [hhandlers, Draft.length_handlerLabels]
  -- The state after each part: the end of the range, the labels, the entries and the handlers.
  obtain ⟨s₁, hs₁⟩ : ∃ x, x = s.withDraft (d.run [.label, .label, .mark ⟨n⟩]) := ⟨_, rfl⟩
  have hsize : s₁.current.draft.labels.size = n + 2 := by
    rw [hs₁, hn]
    exact size_rangeEnd d
  have hlabels := newLabels_ok region.markers.toList s₁
  rw [hsize, ← hhandlers] at hlabels
  obtain ⟨s₂, hs₂⟩ : ∃ x, x = s₁.withDraft
    (s₁.current.draft.run (region.markers.toList.map fun _ => .label)) := ⟨_, rfl⟩
  rw [← hs₂] at hlabels
  have hprotect := forIn_ok
    (g := fun h : Label × String => [.protect ⟨region.start, ⟨n⟩, h.1, some h.2⟩])
    (f := fun h => emit (.protect ⟨region.start, ⟨n⟩, h.1, some h.2⟩)) (fun _ _ => rfl) handlers s₂
  have hhandle (s : State) := forIn_ok (emitHandler_ok env region.span) handlers s
  have hstop : newLabel s = .ok ⟨n⟩ (s.withDraft d.addLabel) := by
    subst hn hd
    rfl
  have hafter : newLabel (s.withDraft d.addLabel) =
      .ok ⟨n + 1⟩ (s.withDraft d.addLabel.addLabel) := by
    have hnext : d.addLabel.nextLabel = ⟨n + 1⟩ := by simp [Draft.nextLabel, Draft.addLabel, hn]
    rw [← hnext]
    rfl
  have hmark : emit (.mark ⟨n⟩) (s.withDraft d.addLabel.addLabel) = .ok () s₁ := by
    subst hs₁
    rfl
  unfold emitHandlers
  refine (bind_of_ok hstop _).trans ((bind_of_ok hafter _).trans ((bind_of_ok hmark _).trans
    ((bind_of_ok hlabels _).trans ((bind_of_ok hprotect _).trans ?_))))
  refine (bind_of_ok (show emit (.goto ⟨n + 1⟩) _ = .ok () _ from rfl) _).trans
    ((bind_of_ok (hhandle _) _).trans ?_)
  simp only [Draft.closeRegion, hm, ↓reduceIte, Draft.closeSteps, Draft.run_append, ← hd, ← hn,
    ← hhandlers]
  have hadded : handlers.map (fun _ => Draft.Step.label) =
      region.markers.toList.map fun _ => .label := by
    rw [List.map_const', List.map_const', hlength]
  rw [hadded, List.map_eq_flatMap (l := handlers)]
  subst hs₂ hs₁
  rfl

/-- Closing a region is a step of the draft, and the region is gone. -/
theorem closeRegion_eq {s : State} {region : Region} {rest : List Region}
    (hr : s.current.regions = region :: rest) :
    Compile.closeRegion env s = .ok ()
      { s with
        current :=
          { draft := s.current.draft.closeRegion env region.start region.span region.markers.toList
            regions := rest } } := by
  obtain ⟨s₁, hs₁⟩ : ∃ x, x = { s with current := { s.current with regions := rest } } := ⟨_, rfl⟩
  have hpop : popRegion s = .ok region s₁ := by simp [popRegion, hr, hs₁]
  refine (bind_of_ok hpop _).trans ?_
  by_cases hm : region.markers.isEmpty = true
  · simp only [hm, ↓reduceIte]
    rw [Array.isEmpty_iff] at hm
    simp only [hs₁, Draft.closeRegion, hm, ↓reduceIte]
    rfl
  · simp only [hm, Bool.false_eq_true, ↓reduceIte]
    have hne : region.markers.toList ≠ [] := by simpa using hm
    rw [emitHandlers_ok env region s₁ hne, hs₁]
    rfl

theorem closeRegion_ok {s s' : State} (h : Compile.closeRegion env s = .ok () s') :
    ∃ region rest, s.current.regions = region :: rest ∧ s' =
      { s with
        current :=
          { draft := s.current.draft.closeRegion env region.start region.span region.markers.toList
            regions := rest } } := by
  cases hr : s.current.regions with
  | nil =>
    obtain ⟨region, s₁, hpop, -⟩ := bind_ok h
    simp [popRegion, hr] at hpop
  | cons region rest =>
    rw [closeRegion_eq env hr] at h
    cases h
    exact ⟨region, rest, rfl, rfl⟩

/-- Declaring parameters or temporaries changes the innermost scope only. -/
theorem declare_ok {kind : SlotKind} {ident : Ident} {s s' : State}
    (h : declare kind ident s = .ok () s') {top : Scope} {rest : List Scope}
    (hs : s.scopes = ⟨top :: rest⟩) :
    top.conflict? ident.name ident.span = none ∧
      s' = { s with scopes := ⟨top.bind ident.name kind ident.span :: rest⟩ } := by
  simp only [declare, hs, ScopeStack.conflict?, ScopeStack.bind] at h
  split at h
  · cases h
  · rename_i hc
    cases h
    exact ⟨hc, rfl⟩

theorem declareAll_ok {kind : SlotKind} {D : List Ident → Scope → Prop}
    (step : ∀ {done ident top}, D done top → top.conflict? ident.name ident.span = none →
      D (done ++ [ident]) (top.bind ident.name kind ident.span))
    {done idents : List Ident} {s s' : State} (h : idents.forM (declare kind) s = .ok () s')
    {top : Scope} {rest : List Scope} (hs : s.scopes = ⟨top :: rest⟩) (htop : D done top) :
    ∃ top', D (done ++ idents) top' ∧ s' = { s with scopes := ⟨top' :: rest⟩ } := by
  induction idents generalizing done s top with
  | nil =>
    cases h
    exact ⟨top, by simpa using htop, by rw [← hs]⟩
  | cons ident idents ih =>
    have hfirst : (declare kind ident >>= fun _ => idents.forM (declare kind)) s = .ok () s' := h
    obtain ⟨⟨⟩, s₁, hdeclare, hrest⟩ := bind_ok hfirst
    obtain ⟨hc, rfl⟩ := declare_ok hdeclare hs
    obtain ⟨top', hd, rfl⟩ := ih hrest rfl (step htop hc)
    exact ⟨top', by simpa using hd, rfl⟩

theorem declareTemporaries_ok {parameters temporaries : List Ident} {s s' : State} {top : Scope}
    {rest : List Scope} (hs : s.scopes = ⟨top :: rest⟩) (htop : top.Declares parameters [])
    (h : declareTemporaries env temporaries s = .ok () s') :
    ∃ top', top'.Declares parameters temporaries ∧
      s' = { s with scopes := ⟨top' :: rest⟩ }.withDraft (s.current.draft.runOperations
        (Operation.declarations env temporaries)) := by
  cases temporaries with
  | nil =>
    cases h
    exact ⟨top, htop, by rw [← hs]; rfl⟩
  | cons first others =>
    obtain ⟨⟨⟩, s₁, hdeclare, h⟩ := bind_ok h
    obtain ⟨top', hdeclares, rfl⟩ := declareAll_ok (D := fun ts top => top.Declares parameters ts)
      (fun hd hc => hd.temporary hc) hdeclare hs htop
    rw [List.nil_append] at hdeclares
    cases h
    refine ⟨top', hdeclares, ?_⟩
    simp only [Operation.declarations]
    rw [← hdeclares.count]
    rfl

def State.symbol? (s : State) : Option String := s.pending.head?.bind PendingSend.symbol

theorem nameBlock_ok {name : String} {s s' : State} (h : nameBlock s = .ok name s') :
    ∃ next, BlockName.choose s.taken s.nextBlock s.symbol? = (name, next) ∧
      s' = { s with taken := s.taken.insert name, nextBlock := next } := by
  unfold nameBlock at h
  obtain ⟨chosen, next, hchoose⟩ : ∃ chosen next,
      BlockName.choose s.taken s.nextBlock s.symbol? = (chosen, next) := ⟨_, _, rfl⟩
  simp only [State.symbol?] at hchoose
  simp only [hchoose] at h
  cases h
  exact ⟨next, hchoose, rfl⟩

theorem finish_ok {f : MethodFrame} {span : Span} {body : MethodBody}
    (h : f.finish span = .ok body) : f.draft.finish = .ok body := by
  unfold MethodFrame.finish at h
  split at h
  · cases h
  · split at h
    · cases h
      assumption
    · cases h

theorem leaveMethod_ok {span : Span} {body : MethodBody} {s s' : State} {outer : MethodFrame}
    {rest : List MethodFrame} (h : leaveMethod span s = .ok body s')
    (hs : s.suspended = outer :: rest) :
    s.current.draft.finish = .ok body ∧ s' = { s with current := outer, suspended := rest } := by
  simp only [leaveMethod, hs] at h
  split at h
  · rename_i hfinish
    cases h
    exact ⟨finish_ok hfinish, rfl⟩
  · cases h

theorem addMarker_ok {block marker : String} {span : Span} {s s' : State}
    (h : addMarker env block span s = .ok marker s') :
    marker = env.markerName block ∧ ∃ file, markerClass env (env.markerName block) span = .ok file ∧
      s' = { s with markers := s.markers.push file } := by
  obtain ⟨file, s₁, hfile, hrest⟩ := bind_ok h
  obtain ⟨hmarker, rfl⟩ := ofExcept_ok hfile
  cases hrest
  exact ⟨rfl, file, hmarker, rfl⟩

theorem attachMarker_ok {marker : String} {span : Span} {s s' : State}
    (h : attachMarker marker span s = .ok () s') :
    s' = { s with current := { s.current with regions := attach [marker] s.current.regions } } := by
  cases hr : s.current.regions with
  | nil => simp [attachMarker, hr] at h
  | cons region rest =>
    simp only [attachMarker, hr] at h
    cases h
    simp [attach]

/-- A block that answers is given its marker once it is created. -/
theorem pushBlock_answers (name : String) (span : Span) (s : State) :
    pushBlock env .value true name span s =
      (addMarker env name span >>= fun marker => do
        emit (.string (dotted marker))
        invokeObject env "smalltalkBlockAnswer"
          s!"(Ljava/lang/Object;Ljava/lang/String;){env.library.objectType}"
        attachMarker marker span) (s.withDraft (s.current.draft.runOperations
          [.line span.line, .load 1, .invokeDynamic (blockSite env name)])) := by
  rfl

theorem pushBlock_ok {literal : BlockLiteral} {method : Method} {s s' : State}
    (h : pushBlock env literal.role literal.body.answers method.name literal.span s = .ok () s') :
    ∃ files, literal.Marked env method files ∧
      s' = s.blockMade env literal method.name files := by
  obtain ⟨role, parameters, body, span⟩ := literal
  cases hrole : role with
  | method =>
    subst hrole
    have hescapes : BlockLiteral.escapes ⟨.method, parameters, body, span⟩ = false := rfl
    cases h
    refine ⟨[], by simp [BlockLiteral.Marked, hescapes], ?_⟩
    simp only [State.blockMade, hescapes, Bool.false_eq_true, ↓reduceIte, attach_nil,
      Array.append_empty]
    rfl
  | value =>
    subst hrole
    cases hanswers : body.answers with
    | false =>
      have hescapes : BlockLiteral.escapes ⟨.value, parameters, body, span⟩ = false := by
        simp [BlockLiteral.escapes, hanswers]
      simp only [hanswers] at h
      cases h
      refine ⟨[], by simp [BlockLiteral.Marked, hescapes], ?_⟩
      simp only [State.blockMade, hescapes, Bool.false_eq_true, ↓reduceIte, attach_nil,
        Array.append_empty, Operation.block, hanswers]
      rfl
    | true =>
      have hescapes : BlockLiteral.escapes ⟨.value, parameters, body, span⟩ = true := by
        simp [BlockLiteral.escapes, hanswers]
      simp only [hanswers, pushBlock_answers] at h
      obtain ⟨marker, s₂, hadd, hrest⟩ := bind_ok h
      obtain ⟨rfl, file, hfile, rfl⟩ := addMarker_ok env hadd
      have hattach := attachMarker_ok hrest
      refine ⟨[file], by simp [BlockLiteral.Marked, hescapes, hfile], ?_⟩
      have hfiles : s.markers ++ [file].toArray = s.markers.push file := by simp
      rw [hattach]
      simp only [State.blockMade, hescapes, ↓reduceIte, Operation.block, hanswers, hfiles]
      rfl

theorem asValue_ok {span : Span} {expression : Compile Receiver} {s s' : State}
    (h : asValue env span expression s = .ok () s') : ∃ r, expression s = .ok r s' := by
  obtain ⟨r, s₁, hr, h⟩ := bind_ok h
  split_ifs at h
  · cases h
  · cases h
    exact ⟨r, hr⟩

theorem dispatch_ok {selector : String} {arity : Nat} {r : Receiver} {span : Span} {s s' : State}
    (h : dispatch env selector arity r span s = .ok () s') :
    s' = s.withDraft (s.current.draft.runOperations
      (Operation.dispatch env selector arity r span)) := by
  obtain ⟨⟨⟩, s₁, hcheck, h⟩ := bind_ok h
  unfold checkArity at hcheck
  split_ifs at hcheck
  · cases hcheck
  · cases hcheck
    cases h
    rfl

theorem rejectEscape_ok {r : Receiver} {selector : Ident} {s s' : State}
    (h : rejectEscape env r selector s = .ok () s') : s' = s := by
  unfold rejectEscape at h
  split_ifs at h
  · cases h
  · cases h
    rfl

theorem assignable_ok {target : Ident} {slot : UInt16} {s s' : State}
    (h : assignable target s = .ok slot s') :
    s.scopes.resolve target.name = .temporary slot ∧ s' = s := by
  obtain ⟨resolution, s₁, hresolve, h⟩ := bind_ok h
  obtain ⟨hresolution, rfl⟩ : s.scopes.resolve target.name = resolution ∧ s = s₁ := by
    cases hresolve
    exact ⟨rfl, rfl⟩
  cases resolution with
  | temporary slot' =>
    cases h
    exact ⟨hresolution, rfl⟩
  | argument slot' => cases h
  | unresolved => cases h

theorem checkParts_ok {parts : List KeywordPart} {span : Span} {s s' : State}
    (h : checkParts parts span s = .ok () s') : s' = s := by
  cases parts with
  | nil => cases h
  | cons part parts =>
    cases hf : (part :: parts).find? fun p => !isKeyword p.keyword.name with
    | none =>
      simp only [checkParts, hf] at h
      cases h
      rfl
    | some p =>
      simp only [checkParts, hf] at h
      cases h

theorem checkArity_ok {selector : String} {arity : Nat} {span : Span} {s s' : State}
    (h : checkArity selector arity span s = .ok () s') : s' = s := by
  unfold checkArity at h
  split_ifs at h <;> cases h
  rfl

theorem notePart_ok {first : Bool} {part : KeywordPart} {s s' : State}
    (h : notePart first part s = .ok () s') : ∃ pending, s' = { s with pending } := by
  obtain ⟨⟨⟩, s₁, hkeyword, h⟩ := bind_ok h
  cases hkeyword
  cases first <;> cases hs : part.argument.symbol? <;> rw [hs] at h <;> cases h <;> exact ⟨_, rfl⟩

theorem directiveIndex_ok {name text : String} {span : Span} {n : UInt16} {s s' : State}
    (h : directiveIndex name text span s = .ok n s') : index? text = some n ∧ s' = s := by
  cases hn : index? text with
  | none =>
    simp only [directiveIndex, hn] at h
    cases h
  | some m =>
    simp only [directiveIndex, hn] at h
    cases h
    exact ⟨rfl, rfl⟩

def ReferencesOnly (descriptor : String) : Prop :=
  ∃ d, MethodDescriptor.parse descriptor = .ok d ∧
    ∀ t ∈ d.parameters ++ d.result.toList, t.isReference = true

inductive Compile.Directive.Accepts : Directive → List String → Prop
  | argLoad {text : String} {n : UInt16} (h : index? text = some n) : Accepts .argLoad [text]
  | aload {text : String} {n : UInt16} (h : index? text = some n) : Accepts .aload [text]
  | primitive {text : String} {n : UInt16} (h : index? text = some n) : Accepts .primitive [text]
  | invokeVirtual {owner method descriptor : String} (h : ReferencesOnly descriptor) :
    Accepts .invokeVirtual [owner, method, descriptor]
  | invokeStatic {owner method descriptor : String} (h : ReferencesOnly descriptor) :
    Accepts .invokeStatic [owner, method, descriptor]
  | getStatic {owner field descriptor : String} {t : FieldType}
    (h : FieldType.parse descriptor = .ok t) (ht : t.isReference = true) :
    Accepts .getStatic [owner, field, descriptor]

theorem directiveInvoke_ok {name : String} {op : Opcode} {method : MemberRef} {span : Span}
    {s s' : State} (h : directiveInvoke name op method span s = .ok () s') :
    ReferencesOnly method.descriptor ∧
      s' = s.withDraft (s.current.draft.step (.invoke op method)) := by
  cases hp : MethodDescriptor.parse method.descriptor with
  | error e =>
    simp only [directiveInvoke, hp] at h
    cases h
  | ok descriptor =>
    simp only [directiveInvoke, hp] at h
    obtain ⟨depth, s₁, hdepth, hrest⟩ := bind_ok h
    cases hdepth
    cases hall : (descriptor.parameters ++ descriptor.result.toList).all FieldType.isReference with
    | true =>
      simp only [hall, Bool.not_true, Bool.false_eq_true, ↓reduceIte] at hrest
      split_ifs at hrest <;> cases hrest <;>
        exact ⟨⟨descriptor, hp, List.all_eq_true.1 hall⟩, rfl⟩
    | false =>
      simp only [hall, Bool.not_false, ↓reduceIte] at hrest
      split_ifs at hrest <;> cases hrest

theorem directiveField_ok {name : String} {field : MemberRef} {span : Span} {s s' : State}
    (h : directiveField name field span s = .ok () s') :
    (∃ t, FieldType.parse field.descriptor = .ok t ∧ t.isReference = true) ∧
      s' = s.withDraft (s.current.draft.step (.getStatic field)) := by
  cases hp : FieldType.parse field.descriptor with
  | error e =>
    simp only [directiveField, hp] at h
    cases h
  | ok t =>
    simp only [directiveField, hp] at h
    split_ifs at h with ht <;> cases h
    exact ⟨⟨t, rfl, ht⟩, rfl⟩

theorem directiveLoad_ok {name : String} {slot : UInt16} {span : Span} {s s' : State}
    (h : directiveLoad name slot span s = .ok () s') :
    s' = s.withDraft (s.current.draft.step (.load slot)) := by
  obtain ⟨state, s₁, hget, hload⟩ := bind_ok h
  cases hget
  simp only at hload
  split_ifs at hload <;> cases hload
  rfl

theorem directive_ok {name : String} {kind : Directive} {arguments : List String} {span : Span}
    {s s' : State} (h : directive env name kind arguments span s = .ok () s') :
    kind.Accepts arguments ∧
      s' = s.withDraft
        (s.current.draft.runOperations (Operation.directive env kind arguments)) := by
  obtain ⟨action, haction⟩ : ∃ x, x = directive env name kind arguments span := ⟨_, rfl⟩
  rw [← haction] at h
  unfold directive at haction
  split at haction <;> subst haction
  · obtain ⟨n, s₁, hn, hpush⟩ := bind_ok h
    obtain ⟨hindex, rfl⟩ := directiveIndex_ok hn
    cases hpush
    simp only [Operation.directive, hindex]
    exact ⟨.argLoad hindex, rfl⟩
  · obtain ⟨n, s₁, hn, hload⟩ := bind_ok h
    obtain ⟨hindex, rfl⟩ := directiveIndex_ok hn
    rw [directiveLoad_ok hload]
    simp only [Operation.directive, hindex]
    exact ⟨.aload hindex, rfl⟩
  · exact (directiveInvoke_ok h).imp_left .invokeVirtual
  · exact (directiveInvoke_ok h).imp_left .invokeStatic
  · obtain ⟨⟨t, hparse, ht⟩, hs'⟩ := directiveField_ok h
    exact ⟨.getStatic hparse ht, hs'⟩
  · obtain ⟨n, s₁, hn, hpush⟩ := bind_ok h
    obtain ⟨hindex, rfl⟩ := directiveIndex_ok hn
    cases hpush
    simp only [Operation.directive, hindex]
    exact ⟨.primitive hindex, rfl⟩
  · cases h

theorem argumentBlocks_of_directive {name : String} {parts : List KeywordPart}
    {arguments : List String} (h : parts.mapM (directiveArgument name) = .ok arguments) :
    argumentBlocks env parts = [] := by
  induction parts generalizing arguments with
  | nil => simp [argumentBlocks]
  | cons part parts ih =>
    obtain ⟨keyword, argument⟩ := part
    rw [List.mapM_cons] at h
    cases hf : directiveArgument name ⟨keyword, argument⟩ with
    | error e => simp [hf, bind, Except.bind] at h
    | ok text =>
      cases hr : parts.mapM (directiveArgument name) with
      | error e => simp [hf, hr, bind, Except.bind] at h
      | ok texts =>
        have hrest := ih hr
        cases argument with
        | literal kind text span => simp [argumentBlocks, Expr.blocks, hrest]
        | _ => simp [directiveArgument] at hf

theorem escape_directive {parts : List KeywordPart} {span : Span} {s s' : State}
    (h : escape env parts span s = .ok () s') :
    ∃ kind arguments, Directive.ofSelector? (selectorOf parts) = some kind ∧
      parts.mapM (directiveArgument (selectorOf parts)) = .ok arguments ∧
      directive env (selectorOf parts) kind arguments span
        (s.withDraft (s.current.draft.step (.line span.line))) = .ok () s' := by
  cases hk : Directive.ofSelector? (selectorOf parts) with
  | none =>
    simp only [escape, hk] at h
    cases h
  | some kind =>
    simp only [escape, hk] at h
    obtain ⟨arguments, s₁, harguments, hrest⟩ := bind_ok h
    obtain ⟨hm, rfl⟩ := ofExcept_ok harguments
    exact ⟨kind, arguments, rfl, hm, hrest⟩

theorem escape_ok {parts : List KeywordPart} {span : Span} {s s' : State}
    (h : escape env parts span s = .ok () s') :
    argumentBlocks env parts = [] ∧
      s' = s.withDraft (s.current.draft.runOperations (Operation.escape env parts span)) := by
  obtain ⟨kind, arguments, hk, hm, hdirective⟩ := escape_directive env h
  refine ⟨argumentBlocks_of_directive env hm, ?_⟩
  rw [(directive_ok env hdirective).2]
  simp only [Operation.escape, hk, hm]
  rfl

section

variable {r : Receiver} {s s' : State} {span : Span}

theorem receiver_cascade_ok {target : Expr} {messages : List Message}
    (h : receiver env (.cascade target messages span) s = .ok r s') :
    messages ≠ [] ∧ r = .value ∧ ∃ r' s₁, receiver env target s = .ok r' s₁ ∧
      cascade env r' messages s₁ = .ok () s' := by
  have hsome : messages ≠ [] := by
    rintro rfl
    cases h
  rw [receiver, if_neg (by simpa using hsome)] at h
  obtain ⟨r', s₁, htarget, h⟩ := bind_ok h
  obtain ⟨⟨⟩, s₂, hcascade, h⟩ := bind_ok h
  cases h
  exact ⟨hsome, rfl, r', s₁, htarget, hcascade⟩

theorem receiver_assign_ok {target : Ident} {value : Expr}
    (h : receiver env (.assign target value span) s = .ok r s') :
    r = .value ∧ ∃ slot s₁, s.scopes.resolve target.name = .temporary slot ∧
      asValue env value.span (receiver env value) s = .ok () s₁ ∧
      s' = s₁.withDraft (s₁.current.draft.runOperations
        (.line span.line :: Operation.assign env slot)) := by
  obtain ⟨slot, s₁, hslot, hrest⟩ := bind_ok h
  obtain ⟨hresolution, rfl⟩ := assignable_ok hslot
  obtain ⟨⟨⟩, s₂, hvalue, hrest⟩ := bind_ok hrest
  obtain ⟨⟨⟩, s₃, hassign, hrest⟩ := bind_ok hrest
  cases hrest
  refine ⟨rfl, slot, s₂, hresolution, hvalue, ?_⟩
  cases hassign
  rfl

theorem receiver_paren_ok {inner : Expr} (h : receiver env (.paren inner span) s = .ok r s') :
    r = .value ∧ asValue env inner.span (receiver env inner) s = .ok () s' := by
  obtain ⟨⟨⟩, s₁, hinner, h⟩ := bind_ok h
  cases h
  exact ⟨rfl, hinner⟩

theorem message_binary_ok {selector : Ident} {argument : Expr}
    (h : message env r (.binary selector argument span) s = .ok () s') :
    r ≠ .escape ∧ ∃ s₁, asValue env argument.span (receiver env argument) s = .ok () s₁ ∧
      s' = s₁.withDraft (s₁.current.draft.runOperations
        (Operation.dispatch env selector.name 1 r span)) := by
  obtain ⟨⟨⟩, s₁, hreject, h⟩ := bind_ok h
  have hr : r ≠ .escape := by
    rintro rfl
    cases hreject
  cases rejectEscape_ok env hreject
  obtain ⟨⟨⟩, s₂, hargument, h⟩ := bind_ok h
  exact ⟨hr, s₂, hargument, dispatch_ok env h⟩

/-- The arguments of a keyword message are compiled with a record of the message. -/
theorem message_keyword_ok {parts : List KeywordPart} (hr : r ≠ .escape)
    (h : message env r (.keyword parts span) s = .ok () s') :
    ∃ s₁ s₂, openSend span s = .ok () s₁ ∧ arguments env true parts s₁ = .ok () s₂ ∧
      s' = State.withDraft { s₂ with pending := s₂.pending.tail } (s₂.current.draft.runOperations
        (Operation.dispatch env (selectorOf parts) parts.length r span)) := by
  obtain ⟨⟨⟩, s₁, hcheck, h⟩ := bind_ok h
  cases checkParts_ok hcheck
  rw [if_neg hr] at h
  obtain ⟨⟨⟩, s₂, harity, h⟩ := bind_ok h
  cases checkArity_ok harity
  obtain ⟨⟨⟩, s₃, hopen, h⟩ := bind_ok h
  obtain ⟨⟨⟩, s₄, harguments, h⟩ := bind_ok h
  obtain ⟨⟨⟩, s₅, hclose, h⟩ := bind_ok h
  cases hclose
  exact ⟨s₃, s₄, hopen, harguments, dispatch_ok env h⟩

/-- A statement has a region of its own and is settled after it. -/
theorem statementWith_ok {isLast : Bool} {action : Compile Unit}
    (h : statementWith env isLast span action s = .ok () s') :
    ∃ closed, inRegion env true span action s = .ok () closed ∧ s' =
      closed.withDraft (closed.current.draft.settle env isLast s.current.draft.stack.depth) := by
  obtain ⟨base, s₀, hbase, h⟩ := bind_ok h
  cases hbase
  obtain ⟨⟨⟩, opened, hopen, h⟩ := bind_ok h
  obtain ⟨⟨⟩, inner, hinner, h⟩ := bind_ok h
  obtain ⟨⟨⟩, closed, hclose, h⟩ := bind_ok h
  rw [settle_ok] at h
  cases h
  exact ⟨closed, (bind_of_ok hopen _).trans ((bind_of_ok hinner _).trans hclose), rfl⟩

/-- A statement, then the others. Only the last one can be an answer. -/
theorem statements_cons_ok {first : Statement} {rest : List Statement}
    (h : statements env (first :: rest) s = .ok () s') :
    (first.isAnswer = true → rest = []) ∧
      ∃ s₁, statement env rest.isEmpty first s = .ok () s₁ ∧
        statements env rest s₁ = .ok () s' := by
  have hcheck : ¬(first.isAnswer && !rest.isEmpty) = true := by
    intro hc
    rw [statements, if_pos hc] at h
    cases h
  rw [statements, if_neg hcheck] at h
  obtain ⟨⟨⟩, s₁, hstatement, h⟩ := bind_ok h
  exact ⟨fun hanswer => by simpa [hanswer] using hcheck, s₁, hstatement, h⟩

/-- How a script that compiles was compiled. -/
theorem script_ok {script : Script} {method : Method}
    (h : Compile.script env script (State.initial env) = .ok method s) :
    ∃ s₁ b, sequence env pushReceiver script.body
        { State.initial env with scopes := (State.initial env).scopes.push } = .ok () s₁ ∧
      s₁.current.draft.finish = .ok b ∧ s = { s₁ with scopes := s₁.scopes.pop } ∧
      method = ⟨Access.isProtected, "sendMessages", env.library.scriptDescriptor, b⟩ := by
  obtain ⟨⟨⟩, s₁, hpush, h⟩ := bind_ok h
  cases hpush
  obtain ⟨⟨⟩, s₁, hsequence, h⟩ := bind_ok h
  obtain ⟨⟨⟩, s₂, hpop, h⟩ := bind_ok h
  cases hpop
  obtain ⟨_, s₂, hget, h⟩ := bind_ok h
  cases hget
  obtain ⟨b, s₂, hfinish, h⟩ := bind_ok h
  obtain ⟨hbody, rfl⟩ := ofExcept_ok hfinish
  cases h
  exact ⟨s₁, b, hsequence, finish_ok hbody, rfl, rfl⟩

theorem generate_ok {script : Script} {g : Generated} (h : generate env script = .ok g) :
    ∃ s b, sequence env pushReceiver script.body
        { State.initial env with scopes := (State.initial env).scopes.push } = .ok () s ∧
      s.current.draft.finish = .ok b ∧
      g = ⟨⟨Access.isProtected, "sendMessages", env.library.scriptDescriptor, b⟩, s.blocks.toList,
        s.markers.toList⟩ := by
  unfold generate at h
  split at h
  · rename_i sendMessages state hscript
    obtain ⟨s, b, hsequence, hfinish, rfl, rfl⟩ := script_ok env hscript
    cases h
    exact ⟨s, b, hsequence, hfinish, rfl⟩
  · cases h

/-- If its sequence compiles and the method can be finished, a script compiles. -/
theorem generate_of_sequence {script : Script} {s : State}
    (h : sequence env pushReceiver script.body
      { State.initial env with scopes := (State.initial env).scopes.push } = .ok () s)
    {b : MethodBody} (hb : s.current.finish script.span = .ok b) :
    ∃ g, generate env script = .ok g := by
  have hfinish : ofExcept (s.current.finish script.span) { s with scopes := s.scopes.pop } =
      .ok b { s with scopes := s.scopes.pop } := by
    rw [hb]
    rfl
  have hscript : Compile.script env script (State.initial env) = .ok _ _ :=
    (bind_of_ok (show pushScope (State.initial env) = .ok () _ from rfl) _).trans
      ((bind_of_ok h _).trans (bind_of_ok hfinish _))
  exact ⟨_, by rw [generate, hscript]⟩

end

end SmalltalkJvm
