import SmalltalkJvm.Proofs.Congruence
import SmalltalkJvm.Proofs.UnitLimits

/-! # Parentheses

A script in which one expression is put into parentheses compiles to the same methods and classes,
or fails with the same error. There are few places where an expression is looked at and not only
compiled: as the receiver of messages, where `super` and the escape identifier are told apart from
values; as an argument, where a symbol names blocks and a block may be the body of a method; and as
an argument of a directive, which has to be a literal. Everywhere else parentheses make no
difference.
-/

namespace SmalltalkJvm

open Compile

inductive Place where
  | value
  /-- The receiver of a message or of a cascade. -/
  | receiver
  /-- An argument of a keyword message that is sent. -/
  | argument (first : Bool) (keyword : String)
  /-- An argument of a keyword message to the escape identifier. -/
  | directive

def Expr.isBlock : Expr → Bool
  | .block .. => true
  | _ => false

variable (env : Env)

/-- Whether an expression may be put into parentheses at a place. A receiver has to be a value; a
first argument must not be a symbol, nor the argument of the method keyword a block; the arguments
of directives stay as they are. -/
def Place.Admits (resolve : String → Resolution) : Place → Expr → Prop
  | .value, _ => True
  | .receiver, e => e.asReceiver env resolve = .value
  | .argument first keyword, e =>
    (first = true → e.symbol? = none) ∧
      (keyword = env.settings.methodKeyword → e.isBlock = false)
  | .directive, _ => False

mutual

/-- One expression inside another is put into parentheses. -/
inductive Expr.Wraps : (String → Resolution) → Expr → Expr → Prop where
  | body {resolve : String → Resolution} {parameters : List Ident} {body body' : Sequence}
      {span : Span} (h : Sequence.Wraps parameters body body') :
      Expr.Wraps resolve (.block parameters body span) (.block parameters body' span)
  | target {resolve : String → Resolution} {target target' : Expr} {m : Message} {span : Span}
      (h : Expr.WrapsAt resolve .receiver target target') :
      Expr.Wraps resolve (.send target m span) (.send target' m span)
  | message {resolve : String → Resolution} {target : Expr} {m m' : Message} {span : Span}
      (h : Message.Wraps resolve (target.asReceiver env resolve) m m') :
      Expr.Wraps resolve (.send target m span) (.send target m' span)
  | cascadeTarget {resolve : String → Resolution} {target target' : Expr}
      {messages : List Message} {span : Span} (h : Expr.WrapsAt resolve .receiver target target') :
      Expr.Wraps resolve (.cascade target messages span) (.cascade target' messages span)
  | messages {resolve : String → Resolution} {target : Expr} {messages messages' : List Message}
      {span : Span} (h : MessagesWrap resolve (target.asReceiver env resolve) messages messages') :
      Expr.Wraps resolve (.cascade target messages span) (.cascade target messages' span)
  | assigned {resolve : String → Resolution} {target : Ident} {value value' : Expr} {span : Span}
      (h : Expr.WrapsAt resolve .value value value') :
      Expr.Wraps resolve (.assign target value span) (.assign target value' span)
  | inner {resolve : String → Resolution} {inner inner' : Expr} {span : Span}
      (h : Expr.WrapsAt resolve .value inner inner') :
      Expr.Wraps resolve (.paren inner span) (.paren inner' span)

/-- An expression at a place, or one inside it, is put into parentheses. -/
inductive Expr.WrapsAt : (String → Resolution) → Place → Expr → Expr → Prop where
  | here {resolve : String → Resolution} {place : Place} {e : Expr}
      (h : place.Admits env resolve e) : Expr.WrapsAt resolve place e (.paren e e.span)
  | within {resolve : String → Resolution} {place : Place} {e e' : Expr}
      (h : Expr.Wraps resolve e e') : Expr.WrapsAt resolve place e e'

inductive Message.Wraps : (String → Resolution) → Receiver → Message → Message → Prop where
  | operand {resolve : String → Resolution} {r : Receiver} {selector : Ident}
      {argument argument' : Expr} {span : Span}
      (h : Expr.WrapsAt resolve .value argument argument') :
      Message.Wraps resolve r (.binary selector argument span) (.binary selector argument' span)
  | arguments {resolve : String → Resolution} {r : Receiver} {parts parts' : List KeywordPart}
      {span : Span} (h : ArgumentsWrap resolve r true parts parts') :
      Message.Wraps resolve r (.keyword parts span) (.keyword parts' span)

inductive MessagesWrap : (String → Resolution) → Receiver → List Message → List Message →
    Prop where
  | head {resolve : String → Resolution} {r : Receiver} {m m' : Message} {rest : List Message}
      (h : Message.Wraps resolve r m m') : MessagesWrap resolve r (m :: rest) (m' :: rest)
  | tail {resolve : String → Resolution} {r : Receiver} {m : Message} {rest rest' : List Message}
      (h : MessagesWrap resolve r rest rest') : MessagesWrap resolve r (m :: rest) (m :: rest')

inductive ArgumentsWrap : (String → Resolution) → Receiver → Bool → List KeywordPart →
    List KeywordPart → Prop where
  | head {resolve : String → Resolution} {r : Receiver} {first : Bool} {keyword : Ident}
      {argument argument' : Expr} {rest : List KeywordPart}
      (h : Expr.WrapsAt resolve (if r = .escape then .directive else .argument first keyword.name)
        argument argument') :
      ArgumentsWrap resolve r first (⟨keyword, argument⟩ :: rest) (⟨keyword, argument'⟩ :: rest)
  | tail {resolve : String → Resolution} {r : Receiver} {first : Bool} {part : KeywordPart}
      {rest rest' : List KeywordPart} (h : ArgumentsWrap resolve r false rest rest') :
      ArgumentsWrap resolve r first (part :: rest) (part :: rest')

inductive StatementsWrap : (String → Resolution) → List Statement → List Statement → Prop where
  | expression {resolve : String → Resolution} {value value' : Expr} {rest : List Statement}
      (h : Expr.WrapsAt resolve .value value value') :
      StatementsWrap resolve (.expression value :: rest) (.expression value' :: rest)
  | answer {resolve : String → Resolution} {value value' : Expr} {span : Span}
      {rest : List Statement} (h : Expr.WrapsAt resolve .value value value') :
      StatementsWrap resolve (.answer value span :: rest) (.answer value' span :: rest)
  | tail {resolve : String → Resolution} {first : Statement} {rest rest' : List Statement}
      (h : StatementsWrap resolve rest rest') :
      StatementsWrap resolve (first :: rest) (first :: rest')

inductive Sequence.Wraps : List Ident → Sequence → Sequence → Prop where
  | statements {parameters temporaries : List Ident} {ss ss' : List Statement} {span : Span}
      (h : StatementsWrap (lookup parameters temporaries) ss ss') :
      Sequence.Wraps parameters ⟨temporaries, ss, span⟩ ⟨temporaries, ss', span⟩

end

def Script.Wraps (script script' : Script) : Prop :=
  script.body.Wraps env [] script'.body ∧ script'.span = script.span

section

variable {env} {resolve : String → Resolution} {r : Receiver} {e e' : Expr} {place : Place}

theorem Expr.Wraps.span_eq (h : e.Wraps env resolve e') : e'.span = e.span := by
  cases h <;> rfl

theorem Expr.Wraps.isBlock_eq (h : e.Wraps env resolve e') : e'.isBlock = e.isBlock := by
  cases h <;> rfl

theorem Expr.Wraps.notePart_eq (h : e.Wraps env resolve e') (first : Bool) (keyword : Ident) :
    notePart first ⟨keyword, e'⟩ = notePart first ⟨keyword, e⟩ := by
  cases h <;> rfl

theorem Expr.WrapsAt.span_eq (h : e.WrapsAt env resolve place e') : e'.span = e.span := by
  cases h with
  | here h => rfl
  | within h => exact h.span_eq

theorem Message.Wraps.isKeyword_eq {m m' : Message} (h : m.Wraps env resolve r m') :
    m'.isKeyword = m.isKeyword := by
  cases h <;> rfl

theorem Message.Wraps.span_eq {m m' : Message} (h : m.Wraps env resolve r m') :
    m'.span = m.span := by
  cases h <;> rfl

theorem MessagesWrap.isEmpty_eq {messages messages' : List Message}
    (h : MessagesWrap env resolve r messages messages') :
    messages'.isEmpty = messages.isEmpty := by
  cases h <;> rfl

theorem StatementsWrap.isEmpty_eq {ss ss' : List Statement}
    (h : StatementsWrap env resolve ss ss') : ss'.isEmpty = ss.isEmpty := by
  cases h <;> rfl

theorem StatementsWrap.answers_eq {ss ss' : List Statement}
    (h : StatementsWrap env resolve ss ss') :
    ss'.any Statement.isAnswer = ss.any Statement.isAnswer := by
  induction ss generalizing ss' with
  | nil => cases h
  | cons first rest ih =>
    cases h with
    | expression h | answer h => rfl
    | tail h => rw [List.any_cons, List.any_cons, ih h]

theorem Sequence.Wraps.answers_eq {parameters : List Ident} {body body' : Sequence}
    (h : body.Wraps env parameters body') : body'.answers = body.answers := by
  cases h with
  | statements h => exact h.answers_eq

section

variable {first : Bool} {parts parts' : List KeywordPart}
  (h : ArgumentsWrap env resolve r first parts parts')
include h

theorem ArgumentsWrap.keywords_eq :
    parts'.map KeywordPart.keyword = parts.map KeywordPart.keyword := by
  induction parts generalizing first parts' with
  | nil => cases h
  | cons part rest ih =>
    cases h with
    | head h => rfl
    | tail h => rw [List.map_cons, List.map_cons, ih h]

theorem ArgumentsWrap.length_eq : parts'.length = parts.length := by
  simpa using congrArg List.length h.keywords_eq

/-- Arguments of a directive are literals, or they are refused for not being any. -/
theorem ArgumentsWrap.directiveArguments_eq (hr : r = .escape) (name : String) :
    parts'.mapM (directiveArgument name) = parts.mapM (directiveArgument name) := by
  induction parts generalizing first parts' with
  | nil => cases h
  | cons part rest ih =>
    cases h with
    | head h =>
      rw [if_pos hr] at h
      cases h with
      | here h => exact h.elim
      | within h =>
        rw [List.mapM_cons, List.mapM_cons]
        cases h <;> rfl
    | tail h => rw [List.mapM_cons, List.mapM_cons, ih h]

end

theorem selectorOf_congr {parts parts' : List KeywordPart}
    (h : parts'.map KeywordPart.keyword = parts.map KeywordPart.keyword) :
    selectorOf parts' = selectorOf parts := by
  have hfold (ps : List KeywordPart) : selectorOf ps =
      (ps.map KeywordPart.keyword).foldl (fun selector k => selector ++ k.name) "" := by
    rw [List.foldl_map]
    rfl
  rw [hfold, hfold, h]

/-- Parts are checked by their keywords alone. -/
theorem checkParts_congr {parts parts' : List KeywordPart} (span : Span)
    (h : parts'.map KeywordPart.keyword = parts.map KeywordPart.keyword) :
    checkParts parts' span = checkParts parts span := by
  have hfind (ps : List KeywordPart) :
      (ps.find? fun p => !isKeyword p.keyword.name).map KeywordPart.keyword =
        (ps.map KeywordPart.keyword).find? fun k => !isKeyword k.name := by
    rw [List.find?_map]
    rfl
  have hsame := (hfind parts').trans ((congrArg _ h).trans (hfind parts).symm)
  have hselector := selectorOf_congr h
  cases parts with
  | nil => rw [List.map_eq_nil_iff.1 h]
  | cons part rest =>
    cases parts' with
    | nil => cases h
    | cons part' rest' =>
      unfold checkParts
      dsimp only
      rw [hselector]
      cases hp : (part :: rest).find? fun p => !isKeyword p.keyword.name with
      | none =>
        rw [hp, Option.map_none, Option.map_eq_none_iff] at hsame
        rw [hsame]
      | some p =>
        rw [hp, Option.map_some, Option.map_eq_some_iff] at hsame
        obtain ⟨p', hp', hkeyword⟩ := hsame
        rw [hp']
        simp only [hkeyword]

end

section

theorem asValue_return (span : Span) (x : Compile Unit) (s : State) :
    asValue env span (do x; return .value) s = x s := by
  unfold asValue
  cases hx : x s with
  | ok a s₁ =>
    have hvalue : (do x; return Receiver.value : Compile Receiver) s = .ok .value s₁ :=
      bind_of_ok hx _
    exact bind_of_ok hvalue _
  | error e s₁ => exact bind_of_error (bind_of_error hx _) _

/-- Parentheses ask for a value, like the construct around them. -/
theorem asValue_paren (e : Expr) (span span' : Span) (s : State) :
    asValue env span (receiver env (.paren e span')) s =
      asValue env e.span (receiver env e) s := by
  rw [receiver]
  exact asValue_return env span _ s

/-- An expression that is a value as a receiver is one in parentheses. -/
theorem receiver_paren {e : Expr} {resolve : String → Resolution} {s : State}
    (hs : s.Resolves resolve) (he : e.asReceiver env resolve = .value) (span : Span) :
    receiver env (.paren e span) s = receiver env e s := by
  rw [receiver]
  cases hr : receiver env e s with
  | error e' s₁ => exact bind_of_error (bind_of_error hr _) _
  | ok r s₁ =>
    obtain ⟨rfl, -⟩ := receiver_grows env e hs hr
    rw [he] at hr ⊢
    have hvalue : asValue env e.span (receiver env e) s = .ok () s₁ := (bind_of_ok hr _).trans rfl
    exact bind_of_ok hvalue _

theorem argument_of_not_isBlock {e : Expr} (he : e.isBlock = false) (keyword : String) :
    argument env keyword e = asValue env e.span (receiver env e) := by
  cases e <;> first | rfl | cases he

/-- A block in parentheses is a value. -/
theorem argument_paren {keyword : String} {e : Expr}
    (he : keyword = env.settings.methodKeyword → e.isBlock = false) (s : State) :
    argument env keyword (.paren e e.span) s = argument env keyword e s := by
  refine (asValue_paren env e _ _ s).trans ?_
  cases e with
  | block parameters body span =>
    have hrole : roleOf env keyword = .value := by
      rw [roleOf, if_neg fun h => by cases he h]
    rw [receiver, argument, hrole]
    exact asValue_return env _ _ s
  | _ => rfl

theorem notePart_paren {first : Bool} {keyword : Ident} {e : Expr}
    (he : first = true → e.symbol? = none) :
    notePart first ⟨keyword, .paren e e.span⟩ = notePart first ⟨keyword, e⟩ := by
  cases first with
  | false => rfl
  | true =>
    simp only [notePart, he rfl]
    rfl

variable {env} {resolve : String → Resolution} {e e' : Expr} {s : State}

abbrev Same {α : Type} (r r' : EStateM.Result CompileError State α) : Prop := Alike Eq r r'

theorem Same.asValue {x y : Compile Receiver} (h : Same (x s) (y s)) (span : Span) :
    Same (asValue env span x s) (asValue env span y s) :=
  h.andThen Eq.refl _

def SameAt (env : Env) (s : State) (e e' : Expr) : Place → Prop
  | .value => Same (asValue env e.span (receiver env e) s) (asValue env e'.span (receiver env e') s)
  | .receiver => Same (receiver env e s) (receiver env e' s)
  | .argument first keyword =>
    (∀ ident, notePart first ⟨ident, e'⟩ = notePart first ⟨ident, e⟩) ∧
      ∀ s₁ : State, s₁.scopes = s.scopes →
        Same (argument env keyword e s₁) (argument env keyword e' s₁)
  | .directive => True

theorem sameAt_paren {place : Place} (h : place.Admits env resolve e) (hs : s.Resolves resolve) :
    SameAt env s e (.paren e e.span) place := by
  cases place with
  | value => exact Alike.of_eq Eq.refl (asValue_paren env e _ _ s).symm
  | receiver => exact Alike.of_eq Eq.refl (receiver_paren env hs h _).symm
  | argument first keyword =>
    exact ⟨fun ident => notePart_paren h.1, fun s₁ _ =>
      Alike.of_eq Eq.refl (argument_paren env h.2 s₁).symm⟩
  | directive => trivial

/-- Two expressions are compiled to the same as receivers and as arguments. -/
def SameBoth (env : Env) (s : State) (e e' : Expr) : Prop :=
  Same (receiver env e s) (receiver env e' s) ∧
    ∀ keyword, Same (argument env keyword e s) (argument env keyword e' s)

/-- A block is the only expression that is compiled in another way as an argument. -/
theorem Expr.Wraps.sameBoth (h : e.Wraps env resolve e') (he : e.isBlock = false)
    (hr : Same (receiver env e s) (receiver env e' s)) : SameBoth env s e e' := by
  refine ⟨hr, fun keyword => ?_⟩
  rw [argument_of_not_isBlock env he, argument_of_not_isBlock env (h.isBlock_eq.trans he),
    h.span_eq]
  exact hr.asValue _

theorem Expr.Wraps.sameAt (h : e.Wraps env resolve e') (hs : s.Resolves resolve)
    (hsame : ∀ s : State, s.Resolves resolve → SameBoth env s e e') (place : Place) :
    SameAt env s e e' place := by
  cases place with
  | value =>
    unfold SameAt
    rw [h.span_eq]
    exact (hsame s hs).1.asValue _
  | receiver => exact (hsame s hs).1
  | argument first keyword =>
    exact ⟨h.notePart_eq first, fun s₁ hscopes => (hsame s₁ (hs.of_scopes hscopes)).2 keyword⟩
  | directive => trivial

-- By recursion on how the expression is put into parentheses.
mutual

theorem expression_wraps : ∀ {resolve : String → Resolution} {e e' : Expr},
    e.Wraps env resolve e' → ∀ {s : State}, s.Resolves resolve → SameBoth env s e e'
  | _, _, _, .body h, s, _ => by
    have hsequence (s₁ : State) (top : Scope) (rest : List Scope)
        (hscopes : s₁.scopes = ⟨top :: rest⟩) (htop : top.Declares _ []) :=
      sequence_wraps h (pushNil env) hscopes htop
    constructor
    · rw [receiver, receiver, h.answers_eq]
      exact (Alike.block Eq.refl env hsequence).andThen Eq.refl _
    · intro keyword
      rw [argument, argument, h.answers_eq]
      exact Alike.block Eq.refl env hsequence
  | _, _, _, .target h, s, hs => by
    apply (Expr.Wraps.target h).sameBoth rfl
    rw [receiver, receiver]
    apply Alike.andThen Eq.refl
    apply Alike.inRegion Eq.refl
    intro s₁ hscopes
    have htarget : Same _ _ := wraps_at h (hs.of_scopes hscopes)
    exact htarget.andThen Eq.refl _
  | _, _, _, .message h, s, hs => by
    apply (Expr.Wraps.message h).sameBoth rfl
    rw [receiver, receiver, h.isKeyword_eq]
    apply Alike.andThen Eq.refl
    apply Alike.inRegion Eq.refl
    intro s₁ hscopes
    have hs₁ := hs.of_scopes hscopes
    refine Alike.after Eq.refl _ fun r s₂ hr => ?_
    obtain ⟨rfl, hgrows⟩ := receiver_grows env _ hs₁ hr
    exact message_wraps h (hs₁.of_scopes hgrows.1)
  | _, _, _, .cascadeTarget h, s, hs => by
    apply (Expr.Wraps.cascadeTarget h).sameBoth rfl
    rw [receiver, receiver]
    split_ifs
    · exact rfl
    · have htarget : Same _ _ := wraps_at h hs
      exact htarget.andThen Eq.refl _
  | _, _, _, .messages h, s, hs => by
    apply (Expr.Wraps.messages h).sameBoth rfl
    rw [receiver, receiver, h.isEmpty_eq]
    split_ifs
    · exact rfl
    · refine Alike.after Eq.refl _ fun r s₁ hr => ?_
      obtain ⟨rfl, hgrows⟩ := receiver_grows env _ hs hr
      exact (cascade_wraps h (hs.of_scopes hgrows.1)).andThen Eq.refl _
  | _, _, _, .assigned h, s, hs => by
    apply (Expr.Wraps.assigned h).sameBoth rfl
    rw [receiver, receiver]
    refine Alike.after Eq.refl _ fun slot s₁ hslot => ?_
    obtain ⟨-, rfl⟩ := assignable_ok hslot
    have hvalue : Same _ _ := wraps_at h hs
    exact hvalue.andThen Eq.refl _
  | _, _, _, .inner h, s, hs => by
    apply (Expr.Wraps.inner h).sameBoth rfl
    rw [receiver, receiver]
    have hinner : Same _ _ := wraps_at h hs
    exact hinner.andThen Eq.refl _

theorem wraps_at : ∀ {resolve : String → Resolution} {place : Place} {e e' : Expr},
    e.WrapsAt env resolve place e' → ∀ {s : State}, s.Resolves resolve → SameAt env s e e' place
  | _, _, _, _, .here h, _, hs => sameAt_paren h hs
  | _, place, _, _, .within h, _, hs => h.sameAt hs (fun _ hs => expression_wraps h hs) place

theorem message_wraps : ∀ {resolve : String → Resolution} {r : Receiver} {m m' : Message},
    m.Wraps env resolve r m' → ∀ {s : State}, s.Resolves resolve →
    Same (message env r m s) (message env r m' s)
  | _, _, _, _, .operand h, s, hs => by
    rw [message, message]
    refine Alike.after Eq.refl _ fun _ s₁ hreject => ?_
    cases rejectEscape_ok env hreject
    have hargument : Same _ _ := wraps_at h hs
    exact hargument.andThen Eq.refl _
  | _, _, _, _, .arguments h, s, hs => by
    have hkeywords := h.keywords_eq
    rw [message, message, keywordMessage, keywordMessage, checkParts_congr _ hkeywords,
      selectorOf_congr hkeywords, h.length_eq]
    refine Alike.after Eq.refl _ fun _ s₁ hcheck => ?_
    cases checkParts_ok hcheck
    split_ifs with hr
    · rw [escape, escape, selectorOf_congr hkeywords, h.directiveArguments_eq hr]
      exact Alike.refl Eq.refl _
    · refine Alike.after Eq.refl _ fun _ s₁ hcheck => ?_
      cases checkArity_ok hcheck
      apply Alike.keyword Eq.refl
      intro s₁ hscopes
      exact arguments_wraps h hr (hs.of_scopes hscopes)

theorem cascade_wraps : ∀ {resolve : String → Resolution} {r : Receiver}
    {messages messages' : List Message}, MessagesWrap env resolve r messages messages' →
    ∀ {s : State}, s.Resolves resolve →
    Same (cascade env r messages s) (cascade env r messages' s)
  | resolve, _, _, _, .head h, s, hs => by
    have hmessage {s₁ : State} (hs₁ : s₁.Resolves resolve) := message_wraps h hs₁
    rw [cascade, cascade, h.isKeyword_eq, h.span_eq]
    split_ifs
    · exact (hmessage hs).andThen Eq.refl _
    · refine Alike.after Eq.refl _ fun _ s₁ hdup => ?_
      apply Alike.andThen Eq.refl
      apply Alike.inRegion Eq.refl
      intro s₂ hscopes
      exact hmessage ((hs.emitted hdup).of_scopes hscopes)
    · apply Alike.andThen Eq.refl
      apply Alike.inRegion Eq.refl
      intro s₁ hscopes
      exact hmessage (hs.of_scopes hscopes)
  | _, r, m :: _, _, .tail h, s, hs => by
    have hm := keeps_message env r m
    rw [cascade, cascade, h.isEmpty_eq]
    split_ifs
    · refine Alike.after Eq.refl _ fun _ s₁ hmessage => ?_
      exact cascade_wraps h (hs.keeps hm hmessage)
    · refine Alike.after Eq.refl _ fun _ s₁ hdup => ?_
      refine Alike.after Eq.refl _ fun _ s₂ hmessage => ?_
      refine Alike.after Eq.refl _ fun _ s₃ hdiscard => ?_
      have hs₂ := (hs.emitted hdup).keeps (keeps_inRegion env _ _ hm) hmessage
      exact cascade_wraps h (hs₂.emitted hdiscard)
    · refine Alike.after Eq.refl _ fun _ s₁ hmessage => ?_
      exact cascade_wraps h (hs.keeps (keeps_inRegion env _ _ hm) hmessage)

theorem arguments_wraps : ∀ {resolve : String → Resolution} {r : Receiver} {first : Bool}
    {parts parts' : List KeywordPart}, ArgumentsWrap env resolve r first parts parts' →
    r ≠ .escape → ∀ {s : State}, s.Resolves resolve →
    Same (arguments env first parts s) (arguments env first parts' s)
  | _, _, _, _, _, .head h, hr, s, hs => by
    have hpart := wraps_at h hs
    rw [if_neg hr] at hpart
    obtain ⟨hnote, hargument⟩ := hpart
    rw [arguments_cons, arguments_cons, hnote]
    refine Alike.after Eq.refl _ fun _ s₁ hnoted => ?_
    have hscopes : s₁.scopes = s.scopes := by
      obtain ⟨pending, rfl⟩ := notePart_ok hnoted
      rfl
    exact (hargument s₁ hscopes).andThen Eq.refl _
  | _, _, _, _, _, .tail h, hr, s, hs => by
    rw [arguments_cons, arguments_cons]
    refine Alike.after Eq.refl _ fun _ s₁ hnoted => ?_
    refine Alike.after Eq.refl _ fun _ s₂ hargument => ?_
    exact arguments_wraps h hr ((hs.noted hnoted).keeps (keeps_argument env _ _) hargument)

theorem sequence_wraps : ∀ {parameters : List Ident} {body body' : Sequence},
    body.Wraps env parameters body' → ∀ (whenEmpty : Compile Unit) {s : State} {top : Scope}
    {rest : List Scope}, s.scopes = ⟨top :: rest⟩ → top.Declares parameters [] →
    Same (sequence env whenEmpty body s) (sequence env whenEmpty body' s)
  | _, _, _, .statements h, whenEmpty, s, _, _, hscopes, htop => by
    rw [Compile.sequence, Compile.sequence]
    apply Alike.sequenceWith Eq.refl env hscopes htop h.isEmpty_eq
    intro s₁ hs₁
    exact statements_wraps h hs₁

theorem statements_wraps : ∀ {resolve : String → Resolution} {ss ss' : List Statement},
    StatementsWrap env resolve ss ss' → ∀ {s : State}, s.Resolves resolve →
    Same (statements env ss s) (statements env ss' s)
  | _, _, _, .expression h, s, hs => by
    rw [statements, statements]
    apply Alike.andThen Eq.refl
    rw [statement, statement, h.span_eq]
    apply Alike.statementWith Eq.refl
    intro s₁ hscopes
    have hvalue : Same _ (asValue env _ _ _) := wraps_at h (hs.of_scopes hscopes)
    rwa [h.span_eq] at hvalue
  | _, .answer value span :: _, .answer value' _ :: _, .answer h, s, hs => by
    have hanswer : (Statement.answer value' span).isAnswer =
      (Statement.answer value span).isAnswer := rfl
    rw [statements, statements, hanswer]
    split_ifs
    · exact rfl
    · apply Alike.andThen Eq.refl
      rw [statement, statement]
      apply Alike.statementWith Eq.refl
      intro s₁ hscopes
      apply Alike.answerWith Eq.refl
      intro s₂ hscopes'
      have hvalue : Same _ _ := wraps_at h ((hs.of_scopes hscopes).of_scopes hscopes')
      exact hvalue
  | _, _, _, .tail h, s, hs => by
    rw [statements, statements, h.isEmpty_eq]
    split_ifs
    · exact rfl
    · refine Alike.after Eq.refl _ fun _ s₁ hstatement => ?_
      exact statements_wraps h (hs.keeps (keeps_statement env _ _) hstatement)

end

theorem script_wraps {script script' : Script} (h : script.Wraps env script') :
    Same (Compile.script env script (State.initial env))
      (Compile.script env script' (State.initial env)) := by
  obtain ⟨hbody, hspan⟩ := h
  unfold Compile.script
  rw [hspan]
  refine Alike.after Eq.refl _ fun _ s hpush => ?_
  cases hpush
  exact (sequence_wraps hbody pushReceiver rfl Scope.declares_empty).andThen Eq.refl _

end

/-- Parentheses are transparent: with one expression of a script in parentheses, at a place that
admits them, compilation gives the same methods and classes or fails with the same error. -/
theorem generate_eq_of_wraps {env : Env} {script script' : Script} (h : script.Wraps env script') :
    generate env script = generate env script' := by
  have hsame := script_wraps h
  unfold generate
  cases hscript : Compile.script env script (State.initial env) with
  | ok method s =>
    cases hscript' : Compile.script env script' (State.initial env) with
    | ok method' s' =>
      rw [hscript, hscript'] at hsame
      obtain ⟨rfl, rfl⟩ := hsame
      rfl
    | error e' s' =>
      rw [hscript, hscript'] at hsame
      exact hsame.elim
  | error e s =>
    cases hscript' : Compile.script env script' (State.initial env) with
    | ok method' s' =>
      rw [hscript, hscript'] at hsame
      exact hsame.elim
    | error e' s' =>
      rw [hscript, hscript'] at hsame
      exact congrArg Except.error hsame

namespace Sample

/-- Sends a keyword message to the receiver, with a block that gives the size of an expression. -/
def putSizeOf (e : Expr) : Script :=
  let sized : Sequence := ⟨[], [.expression (.send e (.unary ⟨"size", span⟩) span)], span⟩
  let message : Message := .keyword
    [⟨⟨"at:", span⟩, .literal .symbol "size" span⟩, ⟨⟨"put:", span⟩, .block [] sized span⟩] span
  ⟨⟨[], [.expression (.send (.pseudo .self span) message span)], span⟩, span⟩

end Sample

theorem generate_putSizeOf_paren : ∃ g,
    (Sample.putSizeOf (.literal .string "abc" Sample.span)).Wraps Sample.env
      (Sample.putSizeOf (.paren (.literal .string "abc" Sample.span) Sample.span)) ∧
    generate Sample.env (Sample.putSizeOf (.literal .string "abc" Sample.span)) = .ok g ∧
    generate Sample.env
      (Sample.putSizeOf (.paren (.literal .string "abc" Sample.span) Sample.span)) = .ok g := by
  have hwraps : (Sample.putSizeOf (.literal .string "abc" Sample.span)).Wraps Sample.env
      (Sample.putSizeOf (.paren (.literal .string "abc" Sample.span) Sample.span)) :=
    ⟨.statements (.expression (.within (.message (.arguments (.tail (.head (.within (.body
      (.statements (.expression (.within (.target (.here rfl))))))))))))), rfl⟩
  have hok : (generate Sample.env
      (Sample.putSizeOf (.literal .string "abc" Sample.span))).isOk = true := by decide +kernel
  obtain ⟨g, hg⟩ := exists_ok_of_isOk hok
  exact ⟨g, hwraps, hg, (generate_eq_of_wraps hwraps).symm.trans hg⟩

end SmalltalkJvm
