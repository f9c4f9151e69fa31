import SmalltalkJvm.Proofs.Bookkeeping
import SmalltalkJvm.Proofs.Generation

/-! # Computations that come out alike

Two computations come out alike if both succeed, with the same value in the same state, or both
fail, with errors that are related in a given way. The constructs of a script are congruent for it:
if what they are made of comes out alike wherever it is compiled, so do they.

Where a part of a construct is compiled names resolve as they do in its method, so that is all that
is assumed of the state.
-/

namespace SmalltalkJvm

open Compile

/-- Both computations succeed and have the same result, or both fail, with related errors. -/
def Alike (E : CompileError → CompileError → Prop) {α : Type}
    (r r' : EStateM.Result CompileError State α) : Prop :=
  match r, r' with
  | .ok a s, .ok a' s' => a = a' ∧ s = s'
  | .error e _, .error e' _ => E e e'
  | _, _ => False

def State.Resolves (s : State) (resolve : String → Resolution) : Prop :=
  ∀ name, s.scopes.resolve name = resolve name

theorem State.Resolves.of_scopes {s s' : State} {resolve : String → Resolution}
    (h : s.Resolves resolve) (hscopes : s'.scopes = s.scopes) : s'.Resolves resolve := by
  intro name
  rw [hscopes, h name]

theorem State.Resolves.keeps {s s' : State} {resolve : String → Resolution} (h : s.Resolves resolve)
    {α : Type} {inside : Prop} {a : Compile α} (ha : Keeps inside a) {x : α}
    (hrun : a s = .ok x s') : s'.Resolves resolve :=
  h.of_scopes (ha.balanced hrun).scopes

theorem State.Resolves.emitted {s s' : State} {resolve : String → Resolution}
    (h : s.Resolves resolve) {step : Draft.Step} (hemit : emit step s = .ok () s') :
    s'.Resolves resolve := by
  cases hemit
  exact h.of_scopes rfl

theorem State.Resolves.noted {s s' : State} {resolve : String → Resolution} (h : s.Resolves resolve)
    {first : Bool} {part : KeywordPart} (hnote : notePart first part s = .ok () s') :
    s'.Resolves resolve := by
  obtain ⟨pending, rfl⟩ := notePart_ok hnote
  exact h.of_scopes rfl

/-- In the method of a sequence names resolve to their places in its lists. -/
theorem State.resolves_of_declares {s : State} {top : Scope} {rest : List Scope}
    (hs : s.scopes = ⟨top :: rest⟩) {parameters temporaries : List Ident}
    (htop : top.Declares parameters temporaries) : s.Resolves (lookup parameters temporaries) := by
  intro name
  rw [hs]
  exact htop.resolve_eq name

section

variable (env : Env)

def argument (keyword : String) : Expr → Compile Unit
  | .block parameters body span =>
    block env (roleOf env keyword) parameters body.answers span (sequence env (pushNil env) body)
  | other => asValue env other.span (receiver env other)

theorem arguments_cons (first : Bool) (part : KeywordPart) (rest : List KeywordPart) :
    arguments env first (part :: rest) = (do
      notePart first part
      argument env part.keyword.name part.argument
      arguments env false rest) := by
  obtain ⟨keyword, e⟩ := part
  cases e <;> rw [arguments] <;> rfl

theorem keeps_argument (keyword : String) (e : Expr) : Keeps True (argument env keyword e) := by
  cases e with
  | block parameters body span =>
    exact keeps_block env (fills_sequence env body (.draft fun _ => ⟨(), _, rfl⟩))
  | _ => exact keeps_asValue env _ (keeps_receiver env _)

end

namespace Alike

variable {E : CompileError → CompileError → Prop} {α β : Type} {s : State}

theorem bind {x y : Compile α} {f g : α → Compile β} (h : Alike E (x s) (y s))
    (hf : ∀ a s', x s = .ok a s' → Alike E (f a s') (g a s')) :
    Alike E ((x >>= f) s) ((y >>= g) s) := by
  cases hx : x s with
  | ok a s₁ =>
    cases hy : y s with
    | ok b s₂ =>
      rw [hx, hy] at h
      obtain ⟨rfl, rfl⟩ := h
      rw [bind_of_ok hx, bind_of_ok hy]
      exact hf a s₁ hx
    | error e s₂ =>
      rw [hx, hy] at h
      exact h.elim
  | error e s₁ =>
    cases hy : y s with
    | ok b s₂ =>
      rw [hx, hy] at h
      exact h.elim
    | error e' s₂ =>
      rw [hx, hy] at h
      rw [bind_of_error hx, bind_of_error hy]
      exact h

variable (hE : ∀ e, E e e)
include hE

theorem refl (r : EStateM.Result CompileError State α) : Alike E r r := by
  cases r with
  | ok a s => exact ⟨rfl, rfl⟩
  | error e s => exact hE e

theorem of_eq {r r' : EStateM.Result CompileError State α} (h : r = r') : Alike E r r' := by
  subst h
  exact refl hE r

/-- Both go on in the same way. -/
theorem andThen {x y : Compile α} (h : Alike E (x s) (y s)) (f : α → Compile β) :
    Alike E ((x >>= f) s) ((y >>= f) s) :=
  h.bind fun _ _ _ => refl hE _

/-- Both start in the same way. -/
theorem after (x : Compile α) {f g : α → Compile β}
    (h : ∀ a s', x s = .ok a s' → Alike E (f a s') (g a s')) :
    Alike E ((x >>= f) s) ((x >>= g) s) :=
  (refl hE _).bind h

variable (env : Env)

theorem inRegion {wanted : Bool} {span : Span} {action action' : Compile Unit}
    (h : ∀ s₁ : State, s₁.scopes = s.scopes → Alike E (action s₁) (action' s₁)) :
    Alike E (inRegion env wanted span action s) (inRegion env wanted span action' s) := by
  cases wanted with
  | false => exact h s rfl
  | true =>
    refine after hE (openRegion span) fun _ s₁ hopen => ?_
    cases hopen
    exact (h (s.opened span) rfl).andThen hE _

theorem statementWith {isLast : Bool} {span : Span} {body body' : Compile Unit}
    (h : ∀ s₁ : State, s₁.scopes = s.scopes → Alike E (body s₁) (body' s₁)) :
    Alike E (statementWith env isLast span body s) (statementWith env isLast span body' s) := by
  refine after hE stackDepth fun base s₁ hbase => ?_
  cases hbase
  refine after hE (openRegion span) fun _ s₁ hopen => ?_
  cases hopen
  exact (h (s.opened span) rfl).andThen hE _

theorem answerWith {span : Span} {value value' : Compile Unit}
    (h : ∀ s₁ : State, s₁.scopes = s.scopes → Alike E (value s₁) (value' s₁)) :
    Alike E (answerWith span value s) (answerWith span value' s) := by
  refine after hE (openLine span) fun _ s₁ hline => ?_
  have hscopes : s₁.scopes = s.scopes := by
    cases hline
    rfl
  exact (h s₁ hscopes).andThen hE _

/-- A keyword message to a value: the arguments are compiled in between. -/
theorem keyword {span : Span} {arguments arguments' after : Compile Unit}
    (h : ∀ s₁ : State, s₁.scopes = s.scopes → Alike E (arguments s₁) (arguments' s₁)) :
    Alike E ((do openSend span; arguments; after : Compile Unit) s)
      ((do openSend span; arguments'; after : Compile Unit) s) := by
  refine Alike.after hE (openSend span) fun _ s₁ hopen => ?_
  have hscopes : s₁.scopes = s.scopes := by
    cases hopen
    rfl
  exact (h s₁ hscopes).andThen hE _

/-- The sequence of a block is compiled where its parameters are declared and nothing else is. -/
theorem block {role : BlockRole} {parameters : List Ident} {answers : Bool} {span : Span}
    {sequence sequence' : Compile Unit}
    (h : ∀ (s₁ : State) (top : Scope) (rest : List Scope), s₁.scopes = ⟨top :: rest⟩ →
      top.Declares parameters [] → Alike E (sequence s₁) (sequence' s₁)) :
    Alike E (block env role parameters answers span sequence s)
      (block env role parameters answers span sequence' s) := by
  refine after hE nameBlock fun name s₁ _ => ?_
  refine after hE (enterMethod _) fun _ s₂ henter => ?_
  refine after hE pushScope fun _ s₃ hpush => ?_
  cases henter
  cases hpush
  refine after hE (parameters.forM (declare .argument)) fun _ s₄ hdeclare => ?_
  obtain ⟨top, hdeclares, rfl⟩ := declareAll_ok (D := fun ps top => top.Declares ps [])
    (fun hd hc => hd.argument hc) hdeclare rfl Scope.declares_empty
  exact (h _ top _ rfl hdeclares).andThen hE _

/-- The statements of a sequence are compiled where its names resolve to their places in the
lists. -/
theorem sequenceWith {parameters temporaries : List Ident} {ss ss' : List Statement} {span : Span}
    {whenEmpty statements statements' : Compile Unit} {top : Scope} {rest : List Scope}
    (hs : s.scopes = ⟨top :: rest⟩) (htop : top.Declares parameters [])
    (hempty : ss'.isEmpty = ss.isEmpty)
    (h : ∀ s₁ : State, s₁.Resolves (lookup parameters temporaries) →
      Alike E (statements s₁) (statements' s₁)) :
    Alike E (sequenceWith env ⟨temporaries, ss, span⟩ whenEmpty statements s)
      (sequenceWith env ⟨temporaries, ss', span⟩ whenEmpty statements' s) := by
  refine after hE (declareTemporaries env temporaries) fun _ s₁ hdeclare => ?_
  obtain ⟨top', hdeclares, rfl⟩ := declareTemporaries_ok env hs htop hdeclare
  simp only [hempty]
  split_ifs
  · exact refl hE _
  · exact (h _ (State.resolves_of_declares rfl hdeclares)).andThen hE _

end Alike

end SmalltalkJvm
