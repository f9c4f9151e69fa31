import SmalltalkJvm.Proofs.Checks
import SmalltalkJvm.Proofs.Guards
import SmalltalkJvm.Proofs.Sites

/-! # What the code of a sequence catches

The regions in the code of a sequence are those of its catchers. So the exception entries of the
method are one for each block that the method creates and that answers from it, and the range of
the entry is the code of the block's catcher.
-/

namespace SmalltalkJvm

open Compile

namespace Operation

variable (env : Env)

theorem dispatch_ne_areturn (selector : String) (arity : Nat) (r : Receiver) (span : Span) :
    ∀ op ∈ dispatch env selector arity r span, op ≠ .areturn := by
  simp [dispatch, object]

theorem directive_ne_areturn (kind : Directive) (arguments : List String) :
    ∀ op ∈ directive env kind arguments, op ≠ .areturn := by
  unfold directive
  split
  · rename_i text
    cases index? text <;> simp [slot, context]
  · rename_i text
    cases index? text <;> simp
  · simp
  · simp
  · simp
  · rename_i text
    cases index? text <;> simp [object]
  · simp

theorem escape_ne_areturn (parts : List KeywordPart) (span : Span) :
    ∀ op ∈ escape env parts span, op ≠ .areturn := by
  unfold escape
  split
  · exact List.forall_mem_cons.2 ⟨by simp, directive_ne_areturn env _ _⟩
  · simp

theorem assign_ne_areturn (n : UInt16) : ∀ op ∈ assign env n, op ≠ .areturn := by
  simp [assign]

end Operation

section

variable (env : Env) (resolve : String → Resolution) (names : Nat → String)

def Code.Runs (c : Code) : Prop := c.All (· ≠ .areturn)

theorem Code.runs_line {l : SupportLibrary} {operations : List Operation}
    (h : ∀ op ∈ operations, op.Standard l) (span : Span) :
    (Code.operations (.line span.line :: operations)).Runs :=
  List.forall_mem_cons.2 ⟨by simp, fun op hop => (h op hop).ne_areturn⟩

theorem BlockLiteral.plan_runs (literal : BlockLiteral) (k : Nat) :
    (literal.plan env names k).Runs := by
  refine ⟨fun op hop => (Operation.standard_block env literal _ op hop).ne_areturn, ?_⟩
  split_ifs
  · trivial
  · simp [Code.All]

theorem Plan.region_runs {wanted : Bool} {span : Span} {body : Plan} {k : Nat}
    (h : (body names k).Runs) : (Plan.region wanted span body names k).Runs := by
  cases wanted <;> exact h

mutual

theorem Expr.plan_runs (e : Expr) (k : Nat) : (e.plan env resolve names k).Runs := by
  cases e with
  | literal kind text span => exact Code.runs_line (Operation.standard_literal env kind text) span
  | pseudo word span => exact Code.runs_line (Operation.standard_pseudo env word) span
  | reference name span =>
    rw [Expr.plan]
    split_ifs
    · simp [Plan.operations, Code.Runs, Code.All]
    · exact Code.runs_line (Operation.standard_reference env name _) span
  | block parameters body span => exact BlockLiteral.plan_runs env names _ k
  | send target m span =>
    rw [Expr.plan]
    exact Plan.region_runs names ⟨target.plan_runs k, m.plan_runs _ _⟩
  | cascade target messages span => exact ⟨target.plan_runs k, cascadePlan_runs messages _ _⟩
  | assign target value span =>
    refine ⟨value.plan_runs k, List.forall_mem_cons.2 ⟨by simp, ?_⟩⟩
    split
    · exact Operation.assign_ne_areturn env _
    · simp
  | paren inner span => exact inner.plan_runs k
  | primitive => simp [Expr.plan, Plan.operations, Code.Runs, Code.All]

theorem Message.plan_runs (m : Message) (r : Receiver) (k : Nat) :
    (m.plan env resolve r names k).Runs := by
  cases m with
  | unary selector => exact Operation.dispatch_ne_areturn env _ _ _ _
  | binary selector argument span =>
    exact ⟨argument.plan_runs k, Operation.dispatch_ne_areturn env _ _ _ _⟩
  | keyword parts span =>
    rw [Message.plan]
    split_ifs
    · exact Operation.escape_ne_areturn env parts span
    · exact ⟨argumentsPlan_runs parts k, Operation.dispatch_ne_areturn env _ _ _ _⟩

theorem cascadePlan_runs (messages : List Message) (r : Receiver) (k : Nat) :
    (cascadePlan env resolve r messages names k).Runs := by
  cases messages with
  | nil => simp [cascadePlan, Plan.operations, Code.Runs, Code.All]
  | cons m rest =>
    rw [cascadePlan]
    split_ifs
    · exact ⟨m.plan_runs r k, cascadePlan_runs rest r _⟩
    all_goals
      refine ⟨?_, Plan.region_runs names (m.plan_runs r _), ?_, cascadePlan_runs rest r _⟩ <;>
        simp [Plan.operations, Code.All]

theorem argumentsPlan_runs (parts : List KeywordPart) (k : Nat) :
    (argumentsPlan env resolve parts names k).Runs := by
  cases parts with
  | nil => simp [argumentsPlan, Plan.operations, Code.Runs, Code.All]
  | cons part rest =>
    obtain ⟨keyword, argument⟩ := part
    have hargument := argument.plan_runs k
    cases argument with
    | block parameters body span =>
      exact ⟨BlockLiteral.plan_runs env names _ k, argumentsPlan_runs rest _⟩
    | _ => exact ⟨hargument, argumentsPlan_runs rest _⟩

end

/-- The code of a catcher, which its exception entries protect. -/
def Catcher.code : Catcher → Code
  | .send before target parts span =>
    Plan.append (target.blocks env).length (target.plan env resolve)
      ((Message.keyword parts span).plan env resolve (target.asReceiver env resolve)) names before
  | .cascaded before target parts span =>
    (Message.keyword parts span).plan env resolve (target.asReceiver env resolve) names before
  | .expression before value => value.plan env resolve names before
  | .answer before value span =>
    .append (.operations [.line span.line])
      (.append (value.plan env resolve names before) (.operations [.areturn]))

def Catcher.Sends : Catcher → Prop
  | .send _ target _ _ | .cascaded _ target _ _ => target.asReceiver env resolve ≠ .escape
  | .expression .. | .answer .. => True

namespace Site

def marker (s : Site) : String := env.markerName (names s.number)

def creation (s : Site) : List Operation := Operation.block env s.literal (names s.number)

/-- The block's marker with the code that it is caught in. -/
def guard (s : Site) : String × Code := (s.marker env names, s.catcher.code env resolve names)

end Site

def siteGuards (sites : List Site) : List (String × Code) :=
  (sites.filter (·.literal.escapes)).map (Site.guard env resolve names)

theorem siteGuards_append (first second : List Site) :
    siteGuards env resolve names (first ++ second) =
      siteGuards env resolve names first ++ siteGuards env resolve names second := by
  simp [siteGuards]

/-- Code creates the blocks of some sites, and their answers are caught as the sites say: in a
region of the code, or else by the catcher around it. -/
structure Code.Catches (c : Catcher) (code : Code) (sites : List Site) : Prop where
  guards : (code.guards ++ code.markers.map (·, c.code env resolve names)).Perm
    (siteGuards env resolve names sites)
  creates : ∀ s ∈ sites, (s.catcher = c ∧ code.Has (s.creation env names)) ∨
    (s.catcher.Sends env resolve ∧
      (s.catcher.code env resolve names).Has (s.creation env names))

variable {env resolve names} {c : Catcher}

theorem Code.Catches.operations (operations : List Operation) :
    (Code.operations operations).Catches env resolve names c [] :=
  ⟨List.Perm.refl _, by simp⟩

theorem Code.Catches.append {first second : Code} {p q : List Site}
    (h₁ : first.Catches env resolve names c p) (h₂ : second.Catches env resolve names c q) :
    (first.append second).Catches env resolve names c (p ++ q) where
  guards := by
    rw [siteGuards_append, Code.guards, Code.markers, List.map_append]
    exact (perm_append_exchange ..).trans (List.Perm.append h₁.guards h₂.guards)
  creates s hs := by
    rcases List.mem_append.1 hs with hs | hs
    · rcases h₁.creates s hs with ⟨hc, h⟩ | h
      · exact .inl ⟨hc, .inl h⟩
      · exact .inr h
    · rcases h₂.creates s hs with ⟨hc, h⟩ | h
      · exact .inl ⟨hc, .inr h⟩
      · exact .inr h

theorem Code.Catches.andOperations {first : Code} {sites : List Site}
    (h : first.Catches env resolve names c sites) (operations : List Operation) :
    (first.append (.operations operations)).Catches env resolve names c sites := by
  have happend := h.append (.operations operations)
  rwa [List.append_nil] at happend

/-- The region of a catcher leaves nothing to catch. -/
theorem Code.Catches.region (inner : Catcher) {span : Span} {sites : List Site}
    (hsends : sites ≠ [] → inner.Sends env resolve)
    (h : (inner.code env resolve names).Catches env resolve names inner sites) :
    (Code.region span (inner.code env resolve names)).Catches env resolve names c sites where
  guards := by
    rw [Code.markers, List.map_nil, List.append_nil]
    exact h.guards
  creates s hs := by
    rcases h.creates s hs with ⟨rfl, h⟩ | h
    · exact .inr ⟨hsends (List.ne_nil_of_mem hs), h⟩
    · exact .inr h

theorem BlockLiteral.plan_catches (literal : BlockLiteral) (k : Nat) :
    (literal.plan env names k).Catches env resolve names c
      [⟨k + (literal.body.blocks env).length, literal, c⟩] where
  guards := by
    cases h : literal.escapes with
    | false => simp [BlockLiteral.plan, Code.guards, Code.markers, siteGuards, h]
    | true =>
      simp [BlockLiteral.plan, Code.guards, Code.markers, siteGuards, Site.guard, Site.marker, h]
  creates s hs := by
    obtain rfl := List.mem_singleton.1 hs
    exact .inl ⟨rfl, .inl rfl⟩

/-- A directive creates no blocks. -/
theorem argumentSites_eq_nil {parts : List KeywordPart} (h : argumentBlocks env parts = [])
    (k : Nat) : argumentSites env c k parts = [] := by
  have hcovers := (covers_argumentSites env parts c k).length_eq
  rw [h, List.length_append, List.length_map, List.length_zipIdx] at hcovers
  exact List.eq_nil_of_length_eq_zero (Nat.eq_zero_of_add_eq_zero_right hcovers)

theorem Expr.sites_eq_nil {e : Expr} (h : e.asReceiver env resolve = .escape) (k : Nat) :
    e.sites env c k = [] := by
  unfold Expr.asReceiver at h
  split at h
  · cases h
  · rfl
  · cases h

mutual

theorem Expr.plan_catches (e : Expr) (h : e.Checked env resolve) (c : Catcher) (k : Nat) :
    (e.plan env resolve names k).Catches env resolve names c (e.sites env c k) := by
  cases e with
  | literal | pseudo | primitive => exact .operations _
  | reference name span =>
    rw [Expr.plan]
    split_ifs <;> exact .operations _
  | block parameters body span => exact BlockLiteral.plan_catches _ k
  | send target m span =>
    cases m with
    | keyword parts keywords =>
      refine Code.Catches.region (.send k target parts keywords) (fun hsites hr => hsites ?_) ?_
      · rw [Expr.sites, target.sites_eq_nil hr, Message.sites, argumentSites_eq_nil (h.2.1 hr)]
        rfl
      · exact (target.plan_catches h.1 _ k).append (Message.plan_catches _ h.2 _ _)
    | unary selector => exact (target.plan_catches h.1 _ k).append (Message.plan_catches _ h.2 _ _)
    | binary selector argument span =>
      exact (target.plan_catches h.1 _ k).append (Message.plan_catches _ h.2 _ _)
  | cascade target messages span =>
    exact (target.plan_catches h.1 _ k).append (cascadePlan_catches target messages h.2 c _)
  | assign target value span => exact (value.plan_catches h c k).andOperations _
  | paren inner span => exact inner.plan_catches h c k

theorem Message.plan_catches (m : Message) {r : Receiver} (h : m.Checked env resolve r)
    (c : Catcher) (k : Nat) :
    (m.plan env resolve r names k).Catches env resolve names c (m.sites env c k) := by
  cases m with
  | unary selector => exact .operations _
  | binary selector argument span => exact (argument.plan_catches h c k).andOperations _
  | keyword parts span =>
    rw [Message.plan]
    split_ifs with hr
    · rw [Message.sites, argumentSites_eq_nil (h.1 hr)]
      exact .operations _
    · exact (argumentsPlan_catches parts (h.2 hr) c k).andOperations _

theorem cascadePlan_catches (target : Expr) (messages : List Message)
    (h : messagesChecked env resolve (target.asReceiver env resolve) messages) (c : Catcher)
    (k : Nat) :
    (cascadePlan env resolve (target.asReceiver env resolve) messages names k).Catches env resolve
      names c (messageSites env target c k messages) := by
  cases messages with
  | nil => exact .operations _
  | cons m rest =>
    have hrest := cascadePlan_catches target rest h.2 c (k + (m.blocks env).length)
    rw [cascadePlan]
    split_ifs with hr
    · refine Code.Catches.append ?_ hrest
      cases m with
      | keyword parts span =>
        have hnil := argumentSites_eq_nil (c := .cascaded k target parts span) (h.1.1 hr) k
        rw [Message.sites, hnil, Message.plan, if_pos hr]
        exact .operations _
      | unary selector => exact Message.plan_catches _ h.1 _ k
      | binary selector argument span => exact Message.plan_catches _ h.1 _ k
    all_goals
      refine Code.Catches.append (p := []) (.operations _) (Code.Catches.append ?_
        (Code.Catches.append (p := []) (.operations _) hrest))
      cases m with
      | keyword parts span =>
        exact Code.Catches.region (.cascaded k target parts span) (fun _ => hr)
          (Message.plan_catches _ h.1 _ k)
      | unary selector => exact Message.plan_catches _ h.1 _ k
      | binary selector argument span => exact Message.plan_catches _ h.1 _ k

theorem argumentsPlan_catches (parts : List KeywordPart) (h : argumentsChecked env resolve parts)
    (c : Catcher) (k : Nat) :
    (argumentsPlan env resolve parts names k).Catches env resolve names c
      (argumentSites env c k parts) := by
  cases parts with
  | nil => exact .operations _
  | cons part rest =>
    obtain ⟨keyword, argument⟩ := part
    have hargument : (argument.plan env resolve names k).Catches env resolve names c
        (argument.sites env c k) := argument.plan_catches h.1 c k
    cases argument with
    | block parameters body span =>
      exact (BlockLiteral.plan_catches _ k).append (argumentsPlan_catches rest h.2 c _)
    | _ => exact hargument.append (argumentsPlan_catches rest h.2 c _)

end

theorem Statement.plan_guards (s : Statement) (h : s.Checked env resolve) (isLast : Bool)
    (k : Nat) : (s.plan env resolve isLast names k).guards.Perm
      (siteGuards env resolve names (s.sites env k)) := by
  cases s with
  | expression value => exact (value.plan_catches h (.expression k value) k).guards
  | answer value span =>
    exact ((Code.Catches.operations _).append
      ((value.plan_catches h (.answer k value span) k).andOperations _)).guards

theorem statementsPlan_guards {ss : List Statement} (h : statementsChecked env resolve ss)
    (k : Nat) : (statementsPlan env resolve ss names k).guards.Perm
      (siteGuards env resolve names (statementSites env k ss)) := by
  induction ss generalizing k with
  | nil => exact List.Perm.refl _
  | cons s rest ih =>
    rw [statementSites, siteGuards_append]
    exact List.Perm.append (s.plan_guards h.2.1 _ k) (ih h.2.2 _)

variable (names) in
theorem Sequence.plan_guards {s : Sequence} {parameters : List Ident}
    (h : s.Checked env parameters) (whenEmpty : List Operation) (k : Nat) :
    (s.plan env parameters whenEmpty names k).guards.Perm
      (siteGuards env (lookup parameters s.temporaries) names (s.sites env k)) := by
  obtain ⟨temporaries, ss, span⟩ := s
  have hguards : (Sequence.plan env parameters whenEmpty ⟨temporaries, ss, span⟩ names k).guards =
      (statementsPlan env (lookup parameters temporaries) ss names k).guards := by
    cases ss <;> simp [Sequence.plan, Plan.append, Plan.operations, Code.guards, statementsPlan]
  rw [hguards]
  exact statementsPlan_guards h k

variable (names) in
/-- What creates a block stands in the code of the block's catcher. -/
theorem creates_of_mem_statementSites {ss : List Statement} (h : statementsChecked env resolve ss)
    {k : Nat} {s : Site} (hs : s ∈ statementSites env k ss) :
    s.catcher.Sends env resolve ∧
      (s.catcher.code env resolve names).Has (s.creation env names) := by
  induction ss generalizing k with
  | nil => cases hs
  | cons statement rest ih =>
    rcases List.mem_append.1 hs with hs | hs
    · cases statement with
      | expression value =>
        rcases (value.plan_catches h.2.1 (.expression k value) k).creates s hs with ⟨hc, h⟩ | h
        · rw [hc]
          exact ⟨trivial, h⟩
        · exact h
      | answer value span =>
        rcases (value.plan_catches h.2.1 (.answer k value span) k).creates s hs with ⟨hc, h⟩ | h
        · rw [hc]
          exact ⟨trivial, .inr (.inl h)⟩
        · exact h
    · exact ih h.2.2 hs

/-- A statement that returns the value of code. -/
theorem Code.answer_wires {isLast : Bool} {span : Span} {number : Nat} {code : Code} {d : Draft}
    (hcode : code.Runs) (hr : d.reachable = true)
    (hf : ((Code.statement isLast (.region span (.append (.operations [.line number])
      (.append code (.operations [.areturn]))))).run env d).fault = none) :
    Draft.Wires env d
      ((Code.statement isLast (.region span (.append (.operations [.line number])
        (.append code (.operations [.areturn]))))).run env d)
      (Code.region span (.append (.operations [.line number])
        (.append code (.operations [.areturn])))).guards := by
  have hregion := Draft.fault_run hf
  have hbody := Draft.fault_closeRegion env hregion
  have hvalue : ((Code.append (.operations [.line number]) code).run env
      d.openRegion).fault = none := Draft.fault_run hbody
  have hruns : (Code.append (.operations [.line number]) code).Runs :=
    ⟨by simp [Code.All], hcode⟩
  have hwires := (Code.run_wires hruns (by rwa [Draft.openRegion_eq]) hvalue).trans
    (Draft.runOperations_wires hbody) (Draft.runOperations_builds hbody).code
  have hwhole := (Code.region_wires hr hregion hwires).trans (Draft.runOperations_wires hf)
    (Draft.runOperations_builds hf).code
  rwa [List.append_nil] at hwhole

/-- The statements of a sequence leave their entries to the method: an answer comes last, so control
reaches all of them. -/
theorem statementsPlan_wires {ss : List Statement} (h : statementsChecked env resolve ss) (k : Nat)
    {d : Draft} (hr : d.reachable = true)
    (hf : ((statementsPlan env resolve ss names k).run env d).fault = none) :
    Draft.Wires env d ((statementsPlan env resolve ss names k).run env d)
      (statementsPlan env resolve ss names k).guards := by
  induction ss generalizing k d with
  | nil => exact Draft.runOperations_wires hf
  | cons s rest ih =>
    change ((statementsPlan env resolve rest names _).run env
      ((s.plan env resolve rest.isEmpty names k).run env d)).fault = none at hf
    have hfirst := Code.fault_run env hf
    change Draft.Wires env d ((statementsPlan env resolve rest names _).run env
      ((s.plan env resolve rest.isEmpty names k).run env d))
      ((s.plan env resolve rest.isEmpty names k).guards ++
        (statementsPlan env resolve rest names _).guards)
    cases s with
    | expression value =>
      have hruns : (Statement.plan env resolve rest.isEmpty (.expression value) names k).Runs :=
        value.plan_runs env resolve names k
      exact (Code.run_wires hruns hr hfirst).trans
        (ih h.2.2 _ (Code.readable_of_run env hruns hr hfirst).2 hf) (Code.run_builds env hf).code
    | answer value span =>
      obtain rfl := h.1 rfl
      exact (Code.answer_wires (value.plan_runs env resolve names k) hr hfirst).trans
        (Draft.runOperations_wires hf) (Code.run_builds env hf).code

/-- The body of a sequence's method has the entries of its code. -/
theorem Sequence.plan_wires {s : Sequence} {parameters : List Ident}
    (h : s.Checked env parameters) {whenEmpty : List Operation} {k : Nat} {d : Draft}
    (hr : d.reachable = true)
    (hf : ((s.plan env parameters whenEmpty names k).run env d).fault = none) :
    Draft.Wires env d ((s.plan env parameters whenEmpty names k).run env d)
      (s.plan env parameters whenEmpty names k).guards := by
  obtain ⟨body, hbody⟩ : ∃ body, body =
      (if s.statements.isEmpty then Plan.operations (.line s.span.line :: whenEmpty)
        else statementsPlan env (lookup parameters s.temporaries) s.statements) names k := ⟨_, rfl⟩
  have hplan : s.plan env parameters whenEmpty names k =
      .append (.operations (Operation.declarations env s.temporaries))
        (.append body (.operations [.areturn])) := by
    rw [hbody]
    rfl
  rw [hplan] at hf ⊢
  obtain ⟨d₁, hd₁⟩ : ∃ x, x = d.runOperations (Operation.declarations env s.temporaries) := ⟨_, rfl⟩
  change ((body.run env (d.runOperations _)).runOperations [.areturn]).fault = none at hf
  change Draft.Wires env d ((body.run env (d.runOperations _)).runOperations [.areturn])
    ([] ++ (body.guards ++ []))
  have hfine := Draft.fault_run hf
  have hline := Code.fault_run env hfine
  rw [← hd₁] at hf hfine hline ⊢
  have hr₁ : d₁.reachable = true := by
    rw [hd₁] at hline ⊢
    exact (readable_of_runOperations (fun op hop =>
      (Operation.standard_declarations env s.temporaries op hop).ne_areturn) hr hline).2
  have hdeclares : Draft.Wires env d d₁ [] := by
    rw [hd₁] at hline ⊢
    exact Draft.runOperations_wires hline
  have hwires : Draft.Wires env d₁ (body.run env d₁) body.guards := by
    obtain ⟨temporaries, ss, span⟩ := s
    cases ss with
    | nil =>
      rw [hbody] at hfine ⊢
      exact Draft.runOperations_wires hfine
    | cons statement rest =>
      rw [hbody] at hfine ⊢
      exact statementsPlan_wires h k hr₁ hfine
  exact hdeclares.trans (hwires.trans (Draft.runOperations_wires hf)
    (Draft.runOperations_builds hf).code) ((Code.run_builds env hfine).code.trans
      (Draft.runOperations_builds hf).code)

end

end SmalltalkJvm
