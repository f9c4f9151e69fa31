import SmalltalkJvm.Proofs.FixedTypes

/-! # Scripts that are accepted

Which scripts can be compiled, as a rule about the script alone: declarations have distinct names,
answers stand last, assignments go to temporaries of the same method, keyword messages have one to
five well-formed parts, and there are no empty cascades and no primitives.

The compiler makes its checks one by one, on the way through the script. Each step of it is shown to
decide a part of the rule: it succeeds if that part holds and otherwise stops with an error. That no
error comes from the draft of a method rests on the types of the generated code.
-/

namespace SmalltalkJvm

open Compile

def bareNames (idents : List Ident) : List String := idents.map fun ident => bareName ident.name

/-- Something, then the only colon. -/
def IsKeyword (name : String) : Prop :=
  2 ≤ name.utf8ByteSize ∧ name.toList.getLast? = some ':' ∧ name.toList.count ':' = 1

instance (name : String) : Decidable (IsKeyword name) := inferInstanceAs (Decidable (_ ∧ _))

mutual

/-- An expression of a method with the temporaries given can be compiled. -/
def Expr.accepted (temporaries : List Ident) : Expr → Bool
  | .literal .. | .pseudo .. | .reference .. => true
  | .block parameters body _ => body.accepted parameters
  | .send target m _ => target.accepted temporaries && m.accepted temporaries
  | .cascade target messages _ =>
    !messages.isEmpty && (target.accepted temporaries && messagesAccepted temporaries messages)
  | .assign target value _ =>
    decide (bareName target.name ∈ bareNames temporaries) && value.accepted temporaries
  | .paren inner _ => inner.accepted temporaries
  | .primitive .. => false

def Message.accepted (temporaries : List Ident) : Message → Bool
  | .unary _ => true
  | .binary _ argument _ => argument.accepted temporaries
  | .keyword parts _ =>
    decide (1 ≤ parts.length ∧ parts.length ≤ 5 ∧ ∀ p ∈ parts, IsKeyword p.keyword.name) &&
      argumentsAccepted temporaries parts

def messagesAccepted (temporaries : List Ident) : List Message → Bool
  | [] => true
  | m :: rest => m.accepted temporaries && messagesAccepted temporaries rest

def argumentsAccepted (temporaries : List Ident) : List KeywordPart → Bool
  | [] => true
  | ⟨_, argument⟩ :: rest => argument.accepted temporaries && argumentsAccepted temporaries rest

def Sequence.accepted (parameters : List Ident) : Sequence → Bool
  | ⟨temporaries, ss, _⟩ =>
    decide (bareNames (parameters ++ temporaries)).Nodup && statementsAccepted temporaries ss

/-- Only the last statement may be an answer. -/
def statementsAccepted (temporaries : List Ident) : List Statement → Bool
  | [] => true
  | s :: rest =>
    (!s.isAnswer || rest.isEmpty) && (s.accepted temporaries && statementsAccepted temporaries rest)

def Statement.accepted (temporaries : List Ident) : Statement → Bool
  | .expression value | .answer value _ => value.accepted temporaries

end

def Script.accepted (script : Script) : Bool := script.body.accepted []

/-- An error that is not a fault in the draft of a method. -/
def CompileError.Refuses (e : CompileError) : Prop := ∀ fault, e.cause ≠ .internal (.draft fault)

/-- A step succeeds if a condition holds, and otherwise refuses. -/
def Decides {α : Type} (x : Compile α) (s : State) (A : Prop) : Prop :=
  match x s with
  | .ok _ _ => A
  | .error e _ => ¬A ∧ e.Refuses

namespace Decides

variable {α β : Type} {x : Compile α} {f : α → Compile β} {s s' : State} {a : α} {A B : Prop}

theorem of_ok (h : x s = .ok a s') (hA : A) : Decides x s A := by simpa [Decides, h] using hA

theorem of_error {e : CompileError} (h : x s = .error e s') (hA : ¬A) (he : e.Refuses) :
    Decides x s A := by
  simpa [Decides, h] using ⟨hA, he⟩

theorem congr (h : Decides x s A) (hAB : A ↔ B) : Decides x s B := by rwa [← hAB]

theorem bind (h : Decides x s A)
    (hf : ∀ a s', x s = .ok a s' → A → Decides (f a) s' B) : Decides (x >>= f) s (A ∧ B) := by
  have hrun : (x >>= f) s = EStateM.bind x f s := rfl
  unfold Decides at h ⊢
  rw [hrun, EStateM.bind]
  cases hx : x s with
  | error e s₁ =>
    rw [hx] at h
    exact ⟨fun hAB => h.1 hAB.1, h.2⟩
  | ok a s₁ =>
    rw [hx] at h
    exact (hf a s₁ hx h).congr (by simp [show A from h])

theorem after (h : x s = .ok a s') (hf : Decides (f a) s' A) : Decides (x >>= f) s A := by
  rwa [Decides, bind_of_ok h]

theorem andThen (h : Decides x s A)
    (hf : ∀ a s', x s = .ok a s' → A → ∃ b s₁, f a s' = .ok b s₁) : Decides (x >>= f) s A := by
  have hboth : Decides (x >>= f) s (A ∧ True) := h.bind fun a s' hx hA => by
    obtain ⟨b, s₁, hb⟩ := hf a s' hx hA
    exact .of_ok hb trivial
  exact hboth.congr (by simp)

theorem exists_ok (h : Decides x s A) (hA : A) : ∃ a s', x s = .ok a s' := by
  unfold Decides at h
  cases hx : x s with
  | ok a s' => exact ⟨a, s', rfl⟩
  | error e s' =>
    rw [hx] at h
    exact absurd hA h.1

end Decides

theorem Scope.conflict?_eq_none {scope : Scope} {name : String} {span : Span} :
    scope.conflict? name span = none ↔ scope.resolve name = .unresolved := by
  refine ⟨resolve_of_conflict, fun h => ?_⟩
  unfold Scope.resolve at h
  split at h
  · cases h
  · cases h
  · rename_i hnone
    have hfree : bareName name ∉ scope.bindings := fun hin => by
      rw [binding?, Std.HashMap.getElem?_eq_some_getElem hin] at hnone
      cases hnone
    rw [conflict?, if_neg hfree]

theorem Scope.Declares.fresh_iff {scope : Scope} {parameters temporaries : List Ident}
    (h : scope.Declares parameters temporaries) (ident : Ident) :
    scope.conflict? ident.name ident.span = none ↔
      bareName ident.name ∉ bareNames (parameters ++ temporaries) := by
  rw [conflict?_eq_none, h.resolve_eq, lookup_eq_unresolved]
  simp [bareNames, Ident.binds, List.findIdx?_eq_none_iff]

theorem declareAll_decides {kind : SlotKind} {D : List Ident → Scope → Prop} (before : List Ident)
    (step : ∀ {done ident top}, D done top → top.conflict? ident.name ident.span = none →
      D (done ++ [ident]) (top.bind ident.name kind ident.span))
    (fresh : ∀ {done top}, D done top → ∀ ident : Ident,
      top.conflict? ident.name ident.span = none ↔
        bareName ident.name ∉ bareNames (before ++ done))
    {done idents : List Ident} {s : State} {top : Scope} {rest : List Scope}
    (hs : s.scopes = ⟨top :: rest⟩) (htop : D done top) :
    Decides (idents.forM (declare kind)) s
      ((bareNames idents).Nodup ∧ ∀ x ∈ bareNames idents, x ∉ bareNames (before ++ done)) := by
  induction idents generalizing done s top with
  | nil => exact .of_ok rfl (by simp [bareNames])
  | cons ident idents ih =>
    have hfirst : Decides (declare kind ident) s
        (bareName ident.name ∉ bareNames (before ++ done)) := by
      rw [← fresh htop]
      cases hc : top.conflict? ident.name ident.span with
      | none => exact .of_ok (by simp only [declare, hs, ScopeStack.conflict?, hc]; rfl) rfl
      | some e =>
        refine .of_error (e := e) (by simp only [declare, hs, ScopeStack.conflict?, hc]; rfl)
          (by simp) ?_
        unfold Scope.conflict? at hc
        split_ifs at hc
        cases hc
        simp [CompileError.Refuses]
    have hall : Decides (declare kind ident >>= fun _ => idents.forM (declare kind)) s _ :=
      hfirst.bind fun _ s' h _ => by
        obtain ⟨hc, rfl⟩ := declare_ok h hs
        exact ih rfl (step htop hc)
    refine hall.congr ?_
    simp only [bareNames, List.map_append, List.map_cons, List.map_nil, List.nodup_cons,
      List.mem_append, List.mem_cons]
    grind

variable (env : Env)

theorem declareTemporaries_decides {parameters temporaries : List Ident} {s : State} {top : Scope}
    {rest : List Scope} (hs : s.scopes = ⟨top :: rest⟩) (htop : top.Declares parameters []) :
    Decides (declareTemporaries env temporaries) s ((bareNames temporaries).Nodup ∧
      ∀ x ∈ bareNames temporaries, x ∉ bareNames parameters) := by
  cases temporaries with
  | nil => exact .of_ok rfl (by simp [bareNames])
  | cons first others =>
    have hdeclare : Decides ((first :: others).forM (declare .temporary)) s _ :=
      declareAll_decides (D := fun ts top => top.Declares parameters ts) parameters
        (fun hd hc => hd.temporary hc) (fun hd ident => hd.fresh_iff ident) hs htop
    rw [List.append_nil] at hdeclare
    exact hdeclare.andThen fun _ _ _ _ => ⟨_, _, rfl⟩

section

variable {env} {s s' : State}

theorem closeRegion_of_open (env : Env) (h : s.current.regions ≠ []) :
    ∃ s₁, Compile.closeRegion env s = .ok () s₁ := by
  obtain ⟨region, rest, hregions⟩ := List.exists_cons_of_ne_nil h
  exact ⟨_, closeRegion_eq env hregions⟩

theorem addMarker_of_legal (hl : env.library.Legal) (block : String) (span : Span) (s : State) :
    ∃ file, addMarker env block span s =
      .ok (env.markerName block) { s with markers := s.markers.push file } := by
  have hobject : Legible s!"({env.library.objectType})V" :=
    (writes_takeObject hl.plain).legible
      ⟨List.forall_mem_singleton.2 ⟨hl.object.1, hl.object.2.2⟩, by simp⟩
  obtain ⟨b, hb, -⟩ := markerConstructor_typed hl.plain hobject (env.markerName block)
  obtain ⟨file, hfile⟩ : ∃ file, markerClass env (env.markerName block) span = .ok file := by
    rw [markerClass, hb]
    exact ⟨_, rfl⟩
  refine ⟨file, ?_⟩
  have hmade : ofExcept (markerClass env (env.markerName block) span) s = .ok file s := by
    rw [hfile]
    rfl
  exact bind_of_ok hmade _

theorem attachMarker_of_open (h : s.current.regions ≠ []) (marker : String) (span : Span) :
    ∃ s₁, attachMarker marker span s = .ok () s₁ := by
  obtain ⟨region, rest, hregions⟩ := List.exists_cons_of_ne_nil h
  simp only [attachMarker, hregions]
  exact ⟨_, rfl⟩

/-- The object of a block can be made wherever a region is open. -/
theorem pushBlock_of_open (hl : env.library.Legal) (h : s.current.regions ≠ []) (role : BlockRole)
    (answers : Bool) (name : String) (span : Span) :
    ∃ s₁, pushBlock env role answers name span s = .ok () s₁ := by
  cases role with
  | method => exact ⟨_, rfl⟩
  | value =>
    cases answers with
    | false => exact ⟨_, rfl⟩
    | true =>
      rw [pushBlock_answers]
      obtain ⟨file, hfile⟩ := addMarker_of_legal hl name span (s.withDraft _)
      rw [bind_of_ok hfile]
      exact attachMarker_of_open (by exact h) _ span

/-- The method of a sequence that was compiled has the code of the sequence and no open region. -/
theorem current_of_sequence {locals : List VerificationType} {operations : List Operation}
    {whenEmpty : Compile Unit}
    (hwhen : ∀ s, whenEmpty s = .ok () (s.withDraft (s.current.draft.runOperations operations)))
    {body : Sequence} {parameters : List Ident} {top : Scope} {rest : List Scope}
    (hcurrent : s.current = { draft := env.method locals }) (hs : s.scopes = ⟨top :: rest⟩)
    (htop : top.Declares parameters []) (h : sequence env whenEmpty body s = .ok () s') :
    ∃ names, s'.current = ⟨(body.plan env parameters operations names s.blocks.size).run env
      (env.method locals), []⟩ := by
  have hgrows : body.Grows env parameters operations s s' := sequence_grows env body hwhen h
  obtain ⟨-, methods, files, hemits⟩ := hgrows top rest hs htop
  obtain ⟨names, hnames⟩ := exists_agree s.blocks.size methods
  have hdraft := hemits.draft names hnames
  have hregions := hemits.regions names hnames
  rw [hcurrent] at hdraft hregions
  refine ⟨names, ?_⟩
  rw [← hdraft, show [] = s'.current.regions from hregions.symm]

/-- The method of a sequence that was compiled can be finished. -/
theorem finish_of_sequence (hl : env.library.Legal) {locals : List VerificationType}
    (hframe : env.Frame locals) {operations : List Operation}
    (hstandard : ∀ op ∈ operations, op.Standard env.library)
    (hempty : (∀ op ∈ operations, op.Readable) →
      Operation.TurnAll env.Typed locals operations [] [env.value])
    {whenEmpty : Compile Unit}
    (hwhen : ∀ s, whenEmpty s = .ok () (s.withDraft (s.current.draft.runOperations operations)))
    {body : Sequence} {parameters : List Ident} (hfree : body.EscapeFree env parameters)
    {top : Scope} {rest : List Scope} (hcurrent : s.current = { draft := env.method locals })
    (hs : s.scopes = ⟨top :: rest⟩) (htop : top.Declares parameters [])
    (h : sequence env whenEmpty body s = .ok () s') (span : Span) :
    ∃ b, s'.current.finish span = .ok b := by
  have hchecked := body.checked ⟨whenEmpty, s, top, rest, s', hs, htop, h⟩
  obtain ⟨names, hcurrent'⟩ := current_of_sequence hwhen hcurrent hs htop h
  have hreadable : (body.plan env parameters operations names s.blocks.size).All
      Operation.Readable :=
    body.plan_all env (fun _ hop => hop.readable hl) trivial hl.plain hstandard hfree _
  have hspeaks : env.Speaks :=
    ⟨hl.plain, (writes_fixed env.library).legible ⟨by simp, by
      rintro name ⟨⟩
      exact ⟨hl.object.1, hl.object.2.1⟩⟩⟩
  obtain ⟨b, hb, -⟩ := (Sequence.plan_stops hframe hspeaks hempty hfree hchecked _ hreadable).finish
    env.settings.lineNumbers
  refine ⟨b, ?_⟩
  rw [hcurrent', MethodFrame.finish]
  simp only [Env.method, hb]

end

/-- A state in which an expression of a method can be compiled: names stand for what is declared,
and a region is open. -/
structure Ready (parameters temporaries : List Ident) (s : State) : Prop where
  resolve_eq (name : String) : s.scopes.resolve name = lookup parameters temporaries name
  regions : s.current.regions ≠ []

section

variable {env}

variable {parameters temporaries : List Ident} {s s' : State}

theorem Ready.keeps (h : Ready parameters temporaries s) {α : Type} {a : Compile α}
    (ha : Keeps True a) {x : α} (hrun : a s = .ok x s') : Ready parameters temporaries s' := by
  have hbalanced := ha.balanced hrun
  exact ⟨by rw [hbalanced.scopes]; exact h.resolve_eq, hbalanced.regions_ne_nil h.regions⟩

theorem inRegion_decides {wanted : Bool} {span : Span} {action : Compile Unit} {A : Prop}
    (hs : Ready parameters temporaries s)
    (haction : ∀ s₁, Ready parameters temporaries s₁ → Decides action s₁ A)
    (hkeeps : Keeps True action) : Decides (inRegion env wanted span action) s A := by
  cases wanted with
  | false => exact haction s hs
  | true =>
    have hopened : Ready parameters temporaries (s.opened span) :=
      ⟨hs.resolve_eq, by simp [State.opened]⟩
    refine .after (show openRegion span s = .ok () (s.opened span) from rfl) ?_
    refine (haction _ hopened).andThen fun _ s₁ h _ => ?_
    obtain ⟨s₂, h₂⟩ := closeRegion_of_open env (hopened.keeps hkeeps h).regions
    exact ⟨_, _, h₂⟩

theorem statementWith_decides {isLast : Bool} {span : Span} {action : Compile Unit} {A : Prop}
    (hs : ∀ name, s.scopes.resolve name = lookup parameters temporaries name)
    (haction : ∀ s₁, Ready parameters temporaries s₁ → Decides action s₁ A)
    (hkeeps : Keeps True action) : Decides (statementWith env isLast span action) s A := by
  have hopened : Ready parameters temporaries (s.opened span) := ⟨hs, by simp [State.opened]⟩
  refine .after (show stackDepth s = .ok s.current.draft.stack.depth s from rfl) ?_
  refine .after (show openRegion span s = .ok () (s.opened span) from rfl) ?_
  refine (haction _ hopened).andThen fun _ s₁ h _ => ?_
  obtain ⟨s₂, h₂⟩ := closeRegion_of_open env (hopened.keeps hkeeps h).regions
  exact ⟨_, _, (bind_of_ok h₂ _).trans (settle_ok env isLast _ s₂)⟩

theorem asValue_decides (e : Expr)
    (hfree : env.EscapeFree (lookup parameters temporaries) e.references)
    (hs : Ready parameters temporaries s) {A : Prop} (h : Decides (receiver env e) s A)
    (span : Span) : Decides (asValue env span (receiver env e)) s A := by
  refine h.andThen fun r s₁ hr _ => ?_
  obtain ⟨rfl, -⟩ := receiver_grows env e hs.resolve_eq hr
  rw [if_neg (asReceiver_ne_escape hfree)]
  exact ⟨_, _, rfl⟩

theorem checkArity_of_le {selector : String} {arity : Nat} (h : arity ≤ 5) (span : Span)
    (s : State) : checkArity selector arity span s = .ok () s := by
  rw [checkArity, if_neg (show ¬maxArity < arity from Nat.not_lt.2 h)]
  rfl

theorem checkArity_decides (selector : String) (arity : Nat) (span : Span) (s : State) :
    Decides (checkArity selector arity span) s (arity ≤ 5) := by
  by_cases h : arity ≤ 5
  · exact .of_ok (checkArity_of_le h span s) h
  · have hcheck : checkArity selector arity span s =
        .error ⟨.unsupportedArity selector arity maxArity, span⟩ s := by
      rw [checkArity, if_pos (show maxArity < arity from Nat.not_le.1 h)]
      rfl
    exact .of_error hcheck h (by simp [CompileError.Refuses])

theorem dispatch_of_le {selector : String} {arity : Nat} (h : arity ≤ 5) (r : Receiver)
    (span : Span) (s : State) : ∃ s₁, dispatch env selector arity r span s = .ok () s₁ :=
  ⟨_, bind_of_ok (checkArity_of_le h span s) _⟩

theorem assignable_decides (hs : Ready parameters temporaries s) (target : Ident) :
    Decides (assignable target) s (bareName target.name ∈ bareNames temporaries) := by
  have hresolve : resolve target.name s = .ok (lookup parameters temporaries target.name) s := by
    rw [← hs.resolve_eq]
    rfl
  refine .after hresolve ?_
  have hmem : bareName target.name ∈ bareNames temporaries ↔
      (temporaries.findIdx? (·.binds target.name)).isSome = true := by
    simp [bareNames, Ident.binds, List.findIdx?_isSome]
  rw [hmem]
  cases ht : temporaries.findIdx? (·.binds target.name) with
  | some place =>
    have hlookup : lookup parameters temporaries target.name = .temporary (.ofNat place) := by
      simp [lookup, variableOf, Variable.resolution, ht]
    rw [hlookup]
    exact .of_ok rfl rfl
  | none =>
    cases hp : parameters.findIdx? (·.binds target.name) <;>
      simp only [lookup, variableOf, Variable.resolution, ht, hp, Option.elim] <;>
      exact .of_error rfl (by simp) (by simp [CompileError.Refuses])

theorem nodup_of_accepted {body : Sequence} (h : body.accepted parameters = true) :
    (bareNames parameters).Nodup := by
  obtain ⟨temporaries, ss, span⟩ := body
  simp only [Sequence.accepted, Bool.and_eq_true, decide_eq_true_eq, bareNames,
    List.map_append] at h
  exact (List.nodup_append'.1 h.1).1

/-- When the sequence of a block was compiled, the block can be completed. -/
theorem block_of_sequence (hl : env.library.Legal) (literal : BlockLiteral)
    (hfree : literal.body.EscapeFree env literal.parameters) {name : String} {next : Nat}
    {scope : Scope} (hdeclares : scope.Declares literal.parameters [])
    (h : sequence env (pushNil env) literal.body (s.entered env name next scope) = .ok () s')
    (hregions : s.current.regions ≠ []) :
    ∃ s₁, (do
      popScope
      let body ← leaveMethod literal.span
      modify fun s => { s with
        blocks := s.blocks.push ⟨Access.isPrivate ||| Access.isStatic ||| Access.isSynthetic, name,
          env.library.blockDescriptor, body⟩ }
      pushBlock env literal.role literal.body.answers name literal.span : Compile Unit) s' =
        .ok () s₁ := by
  obtain ⟨b, hb⟩ := finish_of_sequence hl env.frame_block
    (Operation.standard_fixed env "referenceNil") (Operation.turnAll_fixed env.frame_block [])
    (fun _ => rfl) hfree rfl rfl hdeclares h literal.span
  have hgrows : literal.body.Grows env literal.parameters (Draft.nilOperations env) _ s' :=
    sequence_grows env literal.body (fun _ => rfl) h
  obtain ⟨-, methods, files, hemits⟩ := hgrows scope _ rfl hdeclares
  have hsuspended : s'.suspended = s.current :: s.suspended := hemits.suspended
  have hleave : leaveMethod literal.span { s' with scopes := s'.scopes.pop } = .ok b
      { s' with scopes := s'.scopes.pop, current := s.current, suspended := s.suspended } := by
    simp only [leaveMethod, hsuspended, hb]
  obtain ⟨outer, houter⟩ : ∃ x : State, x = { s' with
    scopes := s'.scopes.pop
    current := s.current
    suspended := s.suspended
    blocks := s'.blocks.push ⟨Access.isPrivate ||| Access.isStatic ||| Access.isSynthetic, name,
      env.library.blockDescriptor, b⟩ } := ⟨_, rfl⟩
  have hopen : outer.current.regions ≠ [] := by rwa [houter]
  obtain ⟨s₁, hs₁⟩ := pushBlock_of_open hl hopen literal.role literal.body.answers name literal.span
  rw [houter] at hs₁
  exact ⟨s₁, (bind_of_ok (show popScope s' = .ok () _ from rfl) _).trans
    ((bind_of_ok hleave _).trans hs₁)⟩

/-- A block is decided by its sequence, in a scope with its parameters. -/
theorem block_decides (hl : env.library.Legal) (literal : BlockLiteral)
    (hfree : literal.body.EscapeFree env literal.parameters)
    (hsequence : ∀ {s : State} {top : Scope} {rest : List Scope}, s.scopes = ⟨top :: rest⟩ →
      top.Declares literal.parameters [] → (bareNames literal.parameters).Nodup →
      Decides (sequence env (pushNil env) literal.body) s
        (literal.body.accepted literal.parameters = true))
    (hregions : s.current.regions ≠ []) :
    Decides (block env literal.role literal.parameters literal.body.answers literal.span
      (sequence env (pushNil env) literal.body)) s
      (literal.body.accepted literal.parameters = true) := by
  obtain ⟨name, next, hname⟩ : ∃ name next, nameBlock s =
      .ok name { s with taken := s.taken.insert name, nextBlock := next } := ⟨_, _, rfl⟩
  have hparameters : Decides (literal.parameters.forM (declare .argument))
      (s.entered env name next {})
      ((bareNames literal.parameters).Nodup ∧
        ∀ x ∈ bareNames literal.parameters, x ∉ bareNames []) :=
    declareAll_decides (D := fun ps top => top.Declares ps []) []
      (fun hd hc => hd.argument hc) (fun hd ident => by simpa using hd.fresh_iff ident) rfl
      Scope.declares_empty
  refine .after hname (.after (show enterMethod _ _ = .ok () _ from rfl)
    (.after (show pushScope _ = .ok () (s.entered env name next {}) from rfl) ?_))
  refine Decides.congr (hparameters.bind (B := literal.body.accepted literal.parameters = true)
    fun _ s₁ h hdistinct => ?_)
    ⟨And.right, fun h => ⟨⟨nodup_of_accepted h, by simp [bareNames]⟩, h⟩⟩
  obtain ⟨scope, hdeclares, hs₁⟩ := declareAll_ok (D := fun ps top => top.Declares ps [])
    (fun hd hc => hd.argument hc) h rfl Scope.declares_empty
  have hinner : s₁ = s.entered env name next scope := hs₁
  subst hinner
  refine (hsequence rfl hdeclares hdistinct.1).andThen fun _ s₂ h₂ _ => ?_
  obtain ⟨s₃, h₃⟩ := block_of_sequence hl literal hfree hdeclares h₂ hregions
  exact ⟨_, _, h₃⟩

theorem isKeyword_iff (name : String) : isKeyword name = true ↔ IsKeyword name := by
  simp [isKeyword, IsKeyword, and_assoc]

theorem checkParts_decides (parts : List KeywordPart) (span : Span) (s : State) :
    Decides (checkParts parts span) s
      (1 ≤ parts.length ∧ ∀ p ∈ parts, IsKeyword p.keyword.name) := by
  cases parts with
  | nil => exact .of_error rfl (by simp) (by simp [CompileError.Refuses, CompileError.internal])
  | cons part rest =>
    have hall : (∀ p ∈ part :: rest, IsKeyword p.keyword.name) ↔
        (part :: rest).find? (fun p => !isKeyword p.keyword.name) = none := by
      rw [List.find?_eq_none]
      refine forall₂_congr fun p _ => ?_
      rw [← isKeyword_iff]
      simp
    rw [hall]
    cases hf : (part :: rest).find? fun p => !isKeyword p.keyword.name with
    | none => exact .of_ok (by simp only [checkParts, hf]; rfl) (by simp)
    | some p =>
      refine .of_error (by simp only [checkParts, hf]; rfl) (by simp) ?_
      simp [CompileError.Refuses, CompileError.internal]

theorem notePart_runs (first : Bool) (part : KeywordPart) (s : State) :
    ∃ pending, notePart first part s = .ok () { s with pending } := by
  cases first <;> cases hs : part.argument.symbol? <;> simp only [notePart, hs] <;> exact ⟨_, rfl⟩

mutual

theorem receiver_decides (hl : env.library.Legal) (e : Expr) {parameters temporaries : List Ident}
    (h : env.Free (lookup parameters temporaries) e.references (e.blocks env)) {s : State}
    (hs : Ready parameters temporaries s) :
    Decides (receiver env e) s (e.accepted temporaries = true) := by
  cases e with
  | literal kind text span => exact .of_ok rfl rfl
  | pseudo word span => cases word <;> exact .of_ok rfl rfl
  | reference name span =>
    refine .after (show resolve name s = .ok (s.scopes.resolve name) s from rfl) ?_
    rw [hs.resolve_eq, if_neg (h.1 name (by simp [Expr.references]))]
    cases lookup parameters temporaries name <;> exact .of_ok rfl rfl
  | block ps body span =>
    have hblock := block_decides hl ⟨.value, ps, body, span⟩ (h.2 _ (by simp [Expr.blocks]))
      (fun hscopes hdeclares hdistinct => sequence_decides hl body (fun _ => ⟨_, rfl⟩)
        (h.2 ⟨.value, ps, body, span⟩ (by simp [Expr.blocks]))
        (fun literal hliteral => h.2 literal (by simp [Expr.blocks, hliteral])) hscopes hdeclares
        hdistinct) hs.regions
    exact hblock.andThen fun _ _ _ _ => ⟨_, _, rfl⟩
  | send target m span =>
    have hne := asReceiver_ne_escape h.left.1
    have hregion : Decides (inRegion env m.isKeyword span do
        let r ← receiver env target
        message env r m) s
        (target.accepted temporaries = true ∧ m.accepted temporaries = true) := by
      refine inRegion_decides hs (fun s₁ hs₁ => ?_)
        (.bind (keeps_receiver env target) fun r => keeps_message env r m)
      refine (receiver_decides hl target h.left hs₁).bind fun r s₂ hr _ => ?_
      obtain ⟨rfl, -⟩ := receiver_grows env target hs₁.resolve_eq hr
      exact message_decides hl hne m h.right (hs₁.keeps (keeps_receiver env target) hr)
    refine (hregion.andThen fun _ _ _ _ => ⟨_, _, rfl⟩).congr ?_
    rw [Expr.accepted, Bool.and_eq_true]
  | cascade target messages span =>
    rw [receiver, Expr.accepted]
    by_cases hm : messages.isEmpty = true
    · rw [if_pos hm]
      exact .of_error rfl (by simp [hm]) (by simp [CompileError.Refuses, CompileError.internal])
    · rw [if_neg hm]
      refine Decides.congr ((receiver_decides hl target h.left hs).bind
        (B := messagesAccepted temporaries messages = true) fun r s₁ hr _ => ?_) (by simp [hm])
      obtain ⟨rfl, -⟩ := receiver_grows env target hs.resolve_eq hr
      exact (cascade_decides hl (asReceiver_ne_escape h.left.1) messages h.right
        (hs.keeps (keeps_receiver env target) hr)).andThen fun _ _ _ _ => ⟨_, _, rfl⟩
  | assign target value span =>
    refine Decides.congr ((assignable_decides hs target).bind
      (B := value.accepted temporaries = true) fun slot s₁ hslot _ => ?_)
      (by rw [Expr.accepted, Bool.and_eq_true, decide_eq_true_eq])
    obtain ⟨-, rfl⟩ := assignable_ok hslot
    exact (asValue_decides value h.1 hs (receiver_decides hl value h hs) value.span).andThen
      fun _ _ _ _ => ⟨_, _, rfl⟩
  | paren inner span =>
    exact (asValue_decides inner h.1 hs (receiver_decides hl inner h hs) inner.span).andThen
      fun _ _ _ _ => ⟨_, _, rfl⟩
  | primitive number span =>
    exact .of_error rfl (by simp [Expr.accepted])
      (by simp [CompileError.Refuses, CompileError.internal])

theorem message_decides (hl : env.library.Legal) {r : Receiver} (hr : r ≠ .escape) (m : Message)
    {parameters temporaries : List Ident}
    (h : env.Free (lookup parameters temporaries) m.references (m.blocks env)) {s : State}
    (hs : Ready parameters temporaries s) :
    Decides (message env r m) s (m.accepted temporaries = true) := by
  have hreject (selector : Ident) : rejectEscape env r selector s = .ok () s := by
    rw [rejectEscape, if_neg hr]
    rfl
  cases m with
  | unary selector =>
    obtain ⟨s₁, hs₁⟩ := dispatch_of_le (Nat.zero_le 5) r selector.span s
    exact .after (hreject selector) (.of_ok hs₁ rfl)
  | binary selector argument span =>
    refine .after (hreject selector) ?_
    refine (asValue_decides argument h.1 hs (receiver_decides hl argument h hs)
      argument.span).andThen fun _ s₁ _ _ => ?_
    obtain ⟨s₂, hs₂⟩ := dispatch_of_le (show 1 ≤ 5 by decide) r span s₁
    exact ⟨_, _, hs₂⟩
  | keyword parts span =>
    refine Decides.congr ((checkParts_decides parts span s).bind
      (B := parts.length ≤ 5 ∧ argumentsAccepted temporaries parts = true) fun _ s₁ hcheck _ => ?_)
      (by simp only [Message.accepted, Bool.and_eq_true, decide_eq_true_eq]; tauto)
    cases checkParts_ok hcheck
    rw [if_neg hr]
    refine (checkArity_decides _ parts.length span s).bind fun _ s₂ harity hlength => ?_
    cases checkArity_ok harity
    have hopened : Ready parameters temporaries { s with pending := { span } :: s.pending } :=
      ⟨hs.resolve_eq, hs.regions⟩
    refine .after (show openSend span s = .ok () _ from rfl) ?_
    refine (arguments_decides hl parts h hopened).andThen fun _ s₃ _ _ => ?_
    obtain ⟨s₄, hs₄⟩ := dispatch_of_le hlength r span { s₃ with pending := s₃.pending.tail }
    exact ⟨_, _, hs₄⟩

theorem cascade_decides (hl : env.library.Legal) {r : Receiver} (hr : r ≠ .escape)
    (messages : List Message) {parameters temporaries : List Ident}
    (h : env.Free (lookup parameters temporaries) (messageReferences messages)
      (messageBlocks env messages)) {s : State}
    (hs : Ready parameters temporaries s) :
    Decides (cascade env r messages) s (messagesAccepted temporaries messages = true) := by
  cases messages with
  | nil => exact .of_ok rfl rfl
  | cons m rest =>
    have hmessage {s : State} (hs : Ready parameters temporaries s) :
        Decides (inRegion env m.isKeyword m.span (message env r m)) s
          (m.accepted temporaries = true) :=
      inRegion_decides hs (fun s₁ hs₁ => message_decides hl hr m h.left hs₁) (keeps_message env r m)
    rw [cascade, if_neg hr, messagesAccepted, Bool.and_eq_true]
    cases rest with
    | nil =>
      refine ((hmessage hs).andThen fun _ _ _ _ => ⟨(), _, rfl⟩).congr ?_
      simp [messagesAccepted]
    | cons next others =>
      have hcopied : Ready parameters temporaries
          (s.withDraft (s.current.draft.step (.plain .dup))) := ⟨hs.resolve_eq, hs.regions⟩
      refine .after (show emit (.plain .dup) s = .ok () _ from rfl) ?_
      refine (hmessage hcopied).bind fun _ s₁ hm _ => ?_
      have hready := hcopied.keeps (keeps_inRegion env _ _ (keeps_message env r m)) hm
      refine .after (show emit .discard s₁ = .ok () _ from rfl) ?_
      exact cascade_decides hl hr (next :: others) h.right ⟨hready.resolve_eq, hready.regions⟩

theorem arguments_decides (hl : env.library.Legal) (parts : List KeywordPart) {first : Bool}
    {parameters temporaries : List Ident}
    (h : env.Free (lookup parameters temporaries) (argumentReferences parts)
      (argumentBlocks env parts)) {s : State}
    (hs : Ready parameters temporaries s) :
    Decides (arguments env first parts) s (argumentsAccepted temporaries parts = true) := by
  cases parts with
  | nil => exact .of_ok rfl rfl
  | cons part rest =>
    obtain ⟨keyword, argument⟩ := part
    obtain ⟨pending, hnote⟩ := notePart_runs first ⟨keyword, argument⟩ s
    have hnoted : Ready parameters temporaries { s with pending } := ⟨hs.resolve_eq, hs.regions⟩
    rw [arguments, argumentsAccepted, Bool.and_eq_true]
    refine .after hnote ?_
    cases argument with
    | block ps body span =>
      have hfree := h.left.2
      have hblock := block_decides hl ⟨roleOf env keyword.name, ps, body, span⟩
        (hfree _ (by simp))
        (fun hscopes hdeclares hdistinct => sequence_decides hl body (fun _ => ⟨_, rfl⟩)
          (hfree ⟨roleOf env keyword.name, ps, body, span⟩ (by simp))
          (fun literal hliteral => hfree literal (by simp [hliteral])) hscopes hdeclares
          hdistinct) hnoted.regions
      refine hblock.bind fun _ s₁ hb _ => ?_
      have hkeeps := keeps_argument env keyword.name (.block ps body span)
      exact arguments_decides hl rest h.right (hnoted.keeps hkeeps hb)
    | _ =>
      refine (asValue_decides _ h.left.1 hnoted (receiver_decides hl _ h.left hnoted) _).bind
        fun _ s₁ hvalue _ => ?_
      exact arguments_decides hl rest h.right
        (hnoted.keeps (keeps_asValue env _ (keeps_receiver env _)) hvalue)

theorem sequence_decides (hl : env.library.Legal) (body : Sequence) {parameters : List Ident}
    {whenEmpty : Compile Unit} (hwhen : ∀ s, ∃ s', whenEmpty s = .ok () s')
    (hfree : body.EscapeFree env parameters)
    (hblocks : ∀ literal ∈ body.blocks env, literal.body.EscapeFree env literal.parameters)
    {s : State} {top : Scope} {rest : List Scope} (hs : s.scopes = ⟨top :: rest⟩)
    (htop : top.Declares parameters []) (hdistinct : (bareNames parameters).Nodup) :
    Decides (sequence env whenEmpty body) s (body.accepted parameters = true) := by
  obtain ⟨temporaries, ss, span⟩ := body
  refine Decides.congr ((declareTemporaries_decides env hs htop).bind
    (B := statementsAccepted temporaries ss = true) fun _ s₁ hdeclare _ => ?_) ?_
  · obtain ⟨top', hdeclares, hs₁⟩ := declareTemporaries_ok env hs htop hdeclare
    have hlookup (name : String) :
        s₁.scopes.resolve name = lookup parameters temporaries name := by
      rw [hs₁]
      exact hdeclares.resolve_eq name
    cases ss with
    | nil =>
      obtain ⟨s₂, hs₂⟩ := hwhen (s₁.withDraft (s₁.current.draft.step (.line span.line)))
      exact .after (show openLine span s₁ = .ok () _ from rfl) (.after hs₂ (.of_ok rfl rfl))
    | cons first others =>
      exact (statements_decides hl (first :: others) ⟨hfree, hblocks⟩ hlookup).andThen
        fun _ _ _ _ => ⟨_, _, rfl⟩
  · simp only [Sequence.accepted, Bool.and_eq_true, decide_eq_true_eq, bareNames, List.map_append,
      List.nodup_append', List.disjoint_right]
    exact and_congr_left' ⟨fun h => ⟨hdistinct, h⟩, fun h => h.2⟩

theorem statements_decides (hl : env.library.Legal) (ss : List Statement)
    {parameters temporaries : List Ident}
    (h : env.Free (lookup parameters temporaries) (ss.flatMap Statement.references)
      (statementBlocks env ss)) {s : State}
    (hs : ∀ name, s.scopes.resolve name = lookup parameters temporaries name) :
    Decides (statements env ss) s (statementsAccepted temporaries ss = true) := by
  cases ss with
  | nil => exact .of_ok rfl rfl
  | cons statement rest =>
    rw [statements, statementsAccepted]
    by_cases hlast : (statement.isAnswer && !rest.isEmpty) = true
    · rw [if_pos hlast]
      refine .of_error rfl ?_ (by simp [CompileError.Refuses, CompileError.internal])
      rw [Bool.and_eq_true, Bool.not_eq_true'] at hlast
      simp [hlast]
    · rw [if_neg hlast]
      refine Decides.congr ((statement_decides hl statement h.left hs).bind
        (B := statementsAccepted temporaries rest = true) fun _ s₁ hstatement _ => ?_) ?_
      · have hgrows := statement_grows env statement hs hstatement
        exact statements_decides hl rest h.right (by rw [hgrows.1]; exact hs)
      · have hanswer : (!statement.isAnswer || rest.isEmpty) = true := by
          revert hlast
          cases statement.isAnswer <;> cases rest.isEmpty <;> simp
        rw [hanswer, Bool.true_and, Bool.and_eq_true]

theorem statement_decides (hl : env.library.Legal) (statement : Statement) {isLast : Bool}
    {parameters temporaries : List Ident}
    (h : env.Free (lookup parameters temporaries) statement.references (statement.blocks env))
    {s : State} (hs : ∀ name, s.scopes.resolve name = lookup parameters temporaries name) :
    Decides (Compile.statement env isLast statement) s (statement.accepted temporaries = true) := by
  cases statement with
  | expression value =>
    exact statementWith_decides hs (fun s₁ hs₁ => asValue_decides value h.1 hs₁
      (receiver_decides hl value h hs₁) value.span) (keeps_asValue env _ (keeps_receiver env value))
  | answer value span =>
    have hlined {s : State} (hs : Ready parameters temporaries s) :
        Ready parameters temporaries (s.withDraft (s.current.draft.step (.line span.line))) :=
      ⟨hs.resolve_eq, hs.regions⟩
    refine statementWith_decides hs (fun s₁ hs₁ => ?_)
      (.bind (.emit _) fun _ =>
        .bind (keeps_asValue env _ (keeps_receiver env value)) fun _ => .emit _)
    refine .after (show openLine span s₁ = .ok () _ from rfl) ?_
    exact (asValue_decides value h.1 (hlined hs₁) (receiver_decides hl value h (hlined hs₁))
      value.span).andThen fun _ _ _ _ => ⟨_, _, rfl⟩

end

end

theorem script_decides (hl : env.library.Legal) (s : Script) (hfree : s.EscapeFree env) :
    Decides (Compile.script env s) (State.initial env) (s.accepted = true) := by
  refine .after (show pushScope (State.initial env) = .ok () _ from rfl) ?_
  refine (sequence_decides hl s.body (fun _ => ⟨_, rfl⟩) hfree.1 hfree.2 rfl Scope.declares_empty
    List.nodup_nil).andThen fun _ s₁ h _ => ?_
  have hstandard : ∀ op ∈ [Operation.load 1], op.Standard env.library :=
    List.forall_mem_singleton.2 trivial
  obtain ⟨b, hb⟩ := finish_of_sequence hl env.frame_script hstandard
    (fun _ => Operation.turnAll_self env.frame_script []) (fun _ => rfl) hfree.1 rfl rfl
    Scope.declares_empty h s.span
  have hfinish : ofExcept (s₁.current.finish s.span) { s₁ with scopes := s₁.scopes.pop } =
      .ok b { s₁ with scopes := s₁.scopes.pop } := by
    rw [hb]
    rfl
  exact ⟨_, _, bind_of_ok hfinish _⟩

theorem Script.generates {script : Script} (hl : env.library.Legal)
    (hfree : script.EscapeFree env) (haccepted : script.accepted = true) :
    ∃ g, generate env script = .ok g := by
  obtain ⟨m, s, hs⟩ := (script_decides env hl script hfree).exists_ok haccepted
  exact ⟨_, by rw [generate, hs]⟩

/-- A script without free references to the escape identifier compiles exactly if it follows the
rule, and if it does not compile, that is not for a fault in the code of a method. -/
theorem generate_iff_accepted {script : Script} (hl : env.library.Legal)
    (hfree : script.EscapeFree env) :
    ((∃ g, generate env script = .ok g) ↔ script.accepted = true) ∧
      ∀ e, generate env script = .error e → ∀ fault, e.cause ≠ .internal (.draft fault) := by
  have h := script_decides env hl script hfree
  unfold Decides at h
  unfold generate
  cases hs : Compile.script env script (State.initial env) with
  | ok m s =>
    rw [hs] at h
    simpa using h
  | error e s =>
    rw [hs] at h
    simpa [CompileError.Refuses] using h

theorem Sample.legal : Sample.env.library.Legal := by constructor <;> decide +kernel

/-- The blocks of the sample script have answers, which come to the script's own method. -/
theorem accepted_of_sample : Sample.env.library.Legal ∧ Sample.script.EscapeFree Sample.env ∧
    Sample.script.accepted = true ∧ ∃ g, generate Sample.env Sample.script = .ok g := by
  have haccepted : Sample.script.accepted = true := by decide
  exact ⟨Sample.legal, Sample.escapeFree, haccepted,
    (generate_iff_accepted _ Sample.legal Sample.escapeFree).1.2 haccepted⟩

end SmalltalkJvm
