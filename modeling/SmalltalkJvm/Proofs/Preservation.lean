import SmalltalkJvm.Proofs.Units

/-! # Generated code computes the meaning of the script

Every generated method, run from its first instruction, does what the meaning of its sequence says:
it makes the same calls in the same order on the same values, and returns or throws the same.

The code of a construct is followed by recursion on the construct. Escapes are left out: a script
refers to the escape identifier in order to put instructions of its own into the code.
-/

namespace SmalltalkJvm

open Compile

mutual

/-- The names that an expression refers to, outside of the blocks in it. -/
def Expr.references : Expr → List String
  | .literal .. | .pseudo .. | .block .. | .primitive .. => []
  | .reference name _ => [name]
  | .send target m _ => target.references ++ m.references
  | .cascade target messages _ => target.references ++ messageReferences messages
  | .assign _ value _ => value.references
  | .paren inner _ => inner.references

def Message.references : Message → List String
  | .unary _ => []
  | .binary _ argument _ => argument.references
  | .keyword parts _ => argumentReferences parts

def messageReferences : List Message → List String
  | [] => []
  | m :: rest => m.references ++ messageReferences rest

def argumentReferences : List KeywordPart → List String
  | [] => []
  | ⟨_, argument⟩ :: rest => argument.references ++ argumentReferences rest

end

def Statement.references : Statement → List String
  | .expression value | .answer value _ => value.references

variable (env : Env)

/-- None of some names is the escape identifier, unless it is declared. -/
def Env.EscapeFree (resolve : String → Resolution) (names : List String) : Prop :=
  ∀ name ∈ names, ¬(resolve name = .unresolved ∧ name = env.settings.escapeIdentifier)

def Sequence.EscapeFree (parameters : List Ident) (s : Sequence) : Prop :=
  env.EscapeFree (lookup parameters s.temporaries) (s.statements.flatMap Statement.references)

instance (resolve : String → Resolution) (names : List String) :
    Decidable (env.EscapeFree resolve names) :=
  inferInstanceAs (Decidable (∀ name ∈ names, _))

instance (parameters : List Ident) (s : Sequence) : Decidable (s.EscapeFree env parameters) :=
  inferInstanceAs (Decidable (env.EscapeFree _ _))

section

variable {env} {resolve : String → Resolution} {first second : List String}

theorem Env.EscapeFree.left (h : env.EscapeFree resolve (first ++ second)) :
    env.EscapeFree resolve first :=
  (List.forall_mem_append.1 h).1

theorem Env.EscapeFree.right (h : env.EscapeFree resolve (first ++ second)) :
    env.EscapeFree resolve second :=
  (List.forall_mem_append.1 h).2

theorem asReceiver_ne_escape {e : Expr} (h : env.EscapeFree resolve e.references) :
    e.asReceiver env resolve ≠ .escape := by
  cases e with
  | pseudo word span => cases word <;> simp [Expr.asReceiver]
  | reference name span =>
    have hname := h name (by simp [Expr.references])
    simp [Expr.asReceiver, hname]
  | _ => simp [Expr.asReceiver]

theorem asReceiver_super (env : Env) (resolve : String → Resolution) (e : Expr) :
    decide (e.asReceiver env resolve = .super) = e.isSuper := by
  cases e with
  | pseudo word span => cases word <;> simp [Expr.asReceiver, Expr.isSuper]
  | reference name span =>
    simp only [Expr.asReceiver, Expr.isSuper]
    split_ifs <;> rfl
  | _ => simp [Expr.asReceiver, Expr.isSuper]

end

/-- Code of the support library's calls that attaches the given markers. -/
structure Code.Fits (c : Code) (markers : List String) : Prop where
  standard : c.All (Operation.Standard env.library)
  markers : c.markers = markers

namespace Code.Fits

variable {env}

theorem operations {operations : List Operation} (h : ∀ op ∈ operations, op.Standard env.library) :
    (Code.operations operations).Fits env [] :=
  ⟨h, rfl⟩

theorem append {first second : Code} {m₁ m₂ : List String} (h : first.Fits env m₁)
    (k : second.Fits env m₂) : (Code.append first second).Fits env (m₁ ++ m₂) :=
  ⟨⟨h.standard, k.standard⟩, by rw [Code.markers, h.markers, k.markers]⟩

theorem andOperations {first : Code} {markers : List String} (h : first.Fits env markers)
    {operations : List Operation} (ho : ∀ op ∈ operations, op.Standard env.library) :
    (Code.append first (.operations operations)).Fits env markers := by
  have := h.append (Fits.operations ho)
  rwa [List.append_nil] at this

theorem region {p : Plan} {names : Nat → String} {k : Nat} {markers : List String}
    (h : (p names k).Fits env markers) (wanted : Bool) (span : Span) :
    (Plan.region wanted span p names k).Fits env (if wanted then [] else markers) := by
  cases wanted with
  | false => exact h
  | true => exact ⟨h.standard, rfl⟩

end Code.Fits

section

variable (names : Nat → String)

theorem BlockLiteral.plan_fits (literal : BlockLiteral) (k : Nat) :
    (literal.plan env names k).Fits env (literal.attached env names k) := by
  refine ⟨⟨Operation.standard_block env literal _, ?_⟩, ?_⟩
  · split_ifs <;> simp [Code.All]
  · simp only [plan, attached, Code.markers, List.nil_append]
    split_ifs <;> rfl

mutual

theorem Expr.plan_fits (hl : env.library.Plain) {resolve : String → Resolution} (e : Expr)
    (h : env.EscapeFree resolve e.references) (k : Nat) :
    (e.plan env resolve names k).Fits env (e.attached env names k) := by
  cases e with
  | literal kind text span =>
    exact .operations (List.forall_mem_cons.2 ⟨trivial, Operation.standard_literal env kind text⟩)
  | pseudo word span =>
    exact .operations (List.forall_mem_cons.2 ⟨trivial, Operation.standard_pseudo env word⟩)
  | reference name span =>
    rw [Expr.plan, if_neg (h name (by simp [Expr.references]))]
    exact .operations (List.forall_mem_cons.2 ⟨trivial, Operation.standard_reference env name _⟩)
  | block parameters body span => exact BlockLiteral.plan_fits env names _ k
  | send target m span =>
    have htarget := target.plan_fits hl h.left k
    have hm := m.plan_fits hl (asReceiver_ne_escape h.left) h.right (k + (target.blocks env).length)
    have hboth : (Plan.append (target.blocks env).length (target.plan env resolve)
      (m.plan env resolve (target.asReceiver env resolve)) names k).Fits env _ := htarget.append hm
    exact hboth.region m.isKeyword span
  | cascade target messages span =>
    exact (target.plan_fits hl h.left k).append
      (cascadePlan_fits hl (asReceiver_ne_escape h.left) messages h.right _)
  | assign target value span =>
    refine (value.plan_fits hl h k).andOperations (List.forall_mem_cons.2 ⟨trivial, ?_⟩)
    split
    · exact Operation.standard_assign env hl _
    · simp
  | paren inner span => exact inner.plan_fits hl h k
  | primitive number span => exact .operations (by simp [Operation.Standard])

theorem Message.plan_fits (hl : env.library.Plain) {resolve : String → Resolution}
    {r : Receiver} (hr : r ≠ .escape) (m : Message) (h : env.EscapeFree resolve m.references)
    (k : Nat) :
    (m.plan env resolve r names k).Fits env (m.attached env names k) := by
  cases m with
  | unary selector => exact .operations (Operation.standard_dispatch env hl _ _ _ _)
  | binary selector argument span =>
    exact (argument.plan_fits hl h k).andOperations (Operation.standard_dispatch env hl _ _ _ _)
  | keyword parts span =>
    rw [Message.plan, if_neg hr]
    exact (argumentsPlan_fits hl parts h k).andOperations
      (Operation.standard_dispatch env hl _ _ _ _)

theorem cascadePlan_fits (hl : env.library.Plain) {resolve : String → Resolution}
    {r : Receiver} (hr : r ≠ .escape) (messages : List Message)
    (h : env.EscapeFree resolve (messageReferences messages)) (k : Nat) :
    (cascadePlan env resolve r messages names k).Fits env
      (cascadeAttached env names k messages) := by
  cases messages with
  | nil => exact .operations (by simp)
  | cons m rest =>
    rw [cascadePlan, if_neg hr]
    have hm := (m.plan_fits hl hr h.left k).region m.isKeyword m.span
    have hrest := cascadePlan_fits hl hr rest h.right (k + (m.blocks env).length)
    have hnone (op : Operation) (hop : op.Standard env.library) :
        ∀ x ∈ (if rest.isEmpty then [] else [op]), x.Standard env.library := by
      split_ifs <;> simp [hop]
    exact (Code.Fits.operations (hnone .dup trivial)).append
      (hm.append ((Code.Fits.operations (hnone .discard trivial)).append hrest))

theorem argumentsPlan_fits (hl : env.library.Plain) {resolve : String → Resolution}
    (parts : List KeywordPart)
    (h : env.EscapeFree resolve (argumentReferences parts)) (k : Nat) :
    (argumentsPlan env resolve parts names k).Fits env (argumentsAttached env names k parts) := by
  cases parts with
  | nil => exact .operations (by simp)
  | cons part rest =>
    obtain ⟨keyword, argument⟩ := part
    cases argument with
    | block parameters body span =>
      exact (BlockLiteral.plan_fits env names _ k).append (argumentsPlan_fits hl rest h.right _)
    | _ => exact (Expr.plan_fits hl _ h.left k).append (argumentsPlan_fits hl rest h.right _)

end

end

section

variable {V W : Type} (rt : Runtime V W) (act : Activation V) (x : V) (names : Nat → String)

theorem bind_congr_ok {ε σ α β : Type} {x : EStateM ε σ α} {f g : α → EStateM ε σ β}
    (h : ∀ a s s', x s = .ok a s' → f a = g a) : x >>= f = x >>= g := by
  funext s
  change EStateM.bind x f s = EStateM.bind x g s
  unfold EStateM.bind
  split
  · rename_i a s' hx
    rw [h a s s' hx]
  · rfl

/-- There is a value for each argument. -/
theorem length_argumentsMeaning {places : String → Variable} {parts : List KeywordPart}
    {k : Nat} {values : List V} {w w' : W}
    (h : argumentsMeaning env rt act names places k parts w = .ok values w') :
    values.length = parts.length := by
  induction parts generalizing k values w w' with
  | nil =>
    cases h
    rfl
  | cons part rest ih =>
    obtain ⟨keyword, argument⟩ := part
    have hcons {x : Eval V W V} {k' : Nat}
        (h : (do let value ← x
                 let values ← argumentsMeaning env rt act names places k' rest
                 return value :: values : Eval V W (List V)) w = .ok values w') :
        values.length = rest.length + 1 := by
      obtain ⟨value, w₁, -, h⟩ := bind_ok h
      obtain ⟨values', w₂, hvalues, h⟩ := bind_ok h
      cases h
      rw [List.length_cons, ih hvalues]
    cases argument with
    | block parameters body span => exact hcons h
    | _ => exact hcons h

/-- Code that puts some values on the stack, the last of them on top. -/
def YieldsAll (c : Code) (values : Eval V W (List V)) : Prop :=
  ∀ stack, c.eval env rt (act.locals x) stack = (fun vs => vs.reverse ++ stack) <$> values

theorem YieldsAll.cons {first second : Code} {value : Eval V W V} {values : Eval V W (List V)}
    (h : Yields env rt (act.locals x) first [] value)
    (k : YieldsAll env rt act x second values) :
    YieldsAll env rt act x (.append first second) (do
      let v ← value
      let vs ← values
      return v :: vs) := by
  intro stack
  have hfirst : first.eval env rt (act.locals x) stack = (· :: stack) <$> value := h stack
  have hsecond (v : V) := k (v :: stack)
  simp only [Code.eval, hfirst, bind_map_left, hsecond, map_bind, bind_pure_comp, Functor.map_map,
    List.reverse_cons, List.append_assoc, List.singleton_append]

theorem Code.all_region {p : Plan} {wanted : Bool} {span : Span} {k : Nat} {P : Operation → Prop}
    (h : (Plan.region wanted span p names k).All P) : (p names k).All P := by
  cases wanted <;> exact h

/-- What a message to a value catches, if it is a keyword message. -/
theorem Yields.keyword {p : Plan} {k : Nat} {taken : List V} {value : Eval V W V}
    (h : Yields env rt (act.locals x) (p names k) taken value) (m : Message) (span : Span)
    {markers : List String} (hm : (p names k).markers = markers) :
    Yields env rt (act.locals x) (Plan.region m.isKeyword span p names k) taken
      (catchKeywordAnswers env rt m markers value) := by
  unfold Plan.region catchKeywordAnswers
  split_ifs
  · rw [← hm]
    exact h.region env rt (act.locals x) span
  · exact h

theorem BlockLiteral.plan_yields (literal : BlockLiteral) (k : Nat)
    (hr : (literal.plan env names k).All Operation.Readable) :
    Yields env rt (act.locals x) (literal.plan env names k) []
      (rt.block env act literal (names (k + (literal.body.blocks env).length))) := by
  intro stack
  have hblock := yields_block env rt act x hr.1 stack
  simp only [plan, Code.eval] at hblock ⊢
  rw [hblock]
  split_ifs <;> simp [Code.eval, evalOperations_nil]

mutual

theorem Expr.plan_yields (hl : env.library.Plain) {resolve : String → Resolution}
    {places : String → Variable} (hp : Locates resolve places) (e : Expr)
    (h : env.EscapeFree resolve e.references) (k : Nat)
    (hr : (e.plan env resolve names k).All Operation.Readable) :
    Yields env rt (act.locals x) (e.plan env resolve names k) []
      (e.meaning env rt act names places k) := by
  cases e with
  | literal kind text span =>
    exact (yields_literal env rt act x (List.forall_mem_cons.1 hr).2).line env rt _ span.line
  | pseudo word span =>
    exact (yields_pseudo env rt act x (List.forall_mem_cons.1 hr).2).line env rt _ span.line
  | reference name span =>
    rw [Expr.plan, if_neg (h name (by simp [Expr.references]))] at hr ⊢
    obtain ⟨hfits, hname⟩ := hp name
    rw [hname] at hr ⊢
    exact (yields_reference env rt act x hfits (List.forall_mem_cons.1 hr).2).line env rt _
      span.line
  | block parameters body span => exact BlockLiteral.plan_yields env rt act x names _ k hr
  | send target m span =>
    obtain ⟨htarget, hmessage⟩ := Code.all_region names hr
    have hfits := (target.plan_fits env names hl h.left k).append
      (m.plan_fits env names hl (asReceiver_ne_escape h.left) h.right
        (k + (target.blocks env).length))
    refine Yields.keyword env rt act x names ?_ m span hfits.markers
    refine Yields.append env rt _ (target.plan_yields hl hp h.left k htarget) fun receiver => ?_
    rw [← asReceiver_super env resolve target]
    exact m.plan_yields hl hp (asReceiver_ne_escape h.left) h.right _ hmessage receiver
  | cascade target messages span =>
    refine Yields.append env rt _ (target.plan_yields hl hp h.left k hr.1) fun receiver => ?_
    rw [← asReceiver_super env resolve target]
    exact cascadePlan_yields hl hp (asReceiver_ne_escape h.left) messages h.right _ hr.2 receiver
  | assign target value span =>
    refine Yields.append env rt _ (value.plan_yields hl hp h k hr.1) fun v => ?_
    have hrest := (List.forall_mem_cons.1 hr.2).2
    refine Yields.line env rt _ ?_ span.line
    obtain ⟨hfits, hname⟩ := hp target.name
    rw [hname] at hrest ⊢
    cases hplace : places target.name with
    | temporary place =>
      rw [hplace] at hfits hrest
      have hassign := yields_assign env rt act x hl hrest v
      rw [UInt16.toNat_ofNat_of_lt' hfits] at hassign
      exact hassign
    | argument place | global =>
      intro stack
      rfl
  | paren inner span => exact inner.plan_yields hl hp h k hr
  | primitive number span =>
    intro stack
    exact eval_self rt act x stack

theorem Message.plan_yields (hl : env.library.Plain) {resolve : String → Resolution}
    {places : String → Variable} (hp : Locates resolve places)
    {r : Receiver} (hr : r ≠ .escape) (m : Message) (h : env.EscapeFree resolve m.references)
    (k : Nat) (hread : (m.plan env resolve r names k).All Operation.Readable) (receiver : V) :
    Yields env rt (act.locals x) (m.plan env resolve r names k) [receiver]
      (m.meaning env rt act names places k (decide (r = .super)) receiver) := by
  cases m with
  | unary selector => exact yields_dispatch env rt act x hl hread receiver [] rfl
  | binary selector argument span =>
    have hargument := argument.plan_yields hl hp h k hread.1
    intro stack
    have hvalue := hargument (receiver :: stack)
    rw [List.nil_append] at hvalue
    have hsend (v : V) := yields_dispatch env rt act x hl hread.2 receiver [v] rfl stack
    simp only [Message.plan, Plan.append, Code.eval, List.singleton_append, hvalue, bind_map_left,
      Message.meaning, map_bind]
    exact bind_congr hsend
  | keyword parts span =>
    rw [Message.plan, if_neg hr] at hread ⊢
    have harguments := argumentsPlan_yields hl hp parts h k hread.1
    intro stack
    have hsend (values : List V) (hn : values.length = parts.length) :
        evalOperations rt (act.locals x)
            (Operation.dispatch env (selectorOf parts) parts.length r span)
            (values.reverse ++ receiver :: stack) =
          (· :: stack) <$>
            rt.send env (decide (r = .super)) (selectorOf parts) receiver values := by
      rw [List.append_cons]
      exact yields_dispatch env rt act x hl hread.2 receiver values hn stack
    simp only [Plan.append, Plan.operations, Code.eval, List.singleton_append, Message.meaning,
      map_bind]
    rw [harguments (receiver :: stack), bind_map_left]
    exact bind_congr_ok fun values w w' hok =>
      hsend values (length_argumentsMeaning env rt act names hok)

theorem cascadePlan_yields (hl : env.library.Plain) {resolve : String → Resolution}
    {places : String → Variable} (hp : Locates resolve places)
    {r : Receiver} (hr : r ≠ .escape) (messages : List Message)
    (h : env.EscapeFree resolve (messageReferences messages)) (k : Nat)
    (hread : (cascadePlan env resolve r messages names k).All Operation.Readable) (receiver : V) :
    Yields env rt (act.locals x) (cascadePlan env resolve r messages names k) [receiver]
      (cascadeMeaning env rt act names places k (decide (r = .super)) receiver messages) := by
  cases messages with
  | nil =>
    intro stack
    rfl
  | cons m rest =>
    rw [cascadePlan, if_neg hr] at hread ⊢
    obtain ⟨-, hm, -, hrest⟩ := hread
    have hmessage := (m.plan_yields hl hp hr h.left k (Code.all_region names hm) receiver).keyword
      env rt
      act x names m m.span (m.plan_fits env names hl hr h.left k).markers
    have hothers := cascadePlan_yields hl hp hr rest h.right _ hrest receiver
    simp only [Nat.add_zero] at hothers
    intro stack
    cases rest with
    | nil =>
      simp only [Plan.append, Plan.operations, cascadePlan, Code.eval, List.isEmpty_nil, ↓reduceIte,
        evalOperations_nil, pure_bind, Nat.add_zero, hmessage stack, cascadeMeaning, bind_pure]
    | cons next others =>
      have hreceiver := hmessage (receiver :: stack)
      have hrest := hothers stack
      simp only [List.singleton_append] at hreceiver hrest
      simp only [Plan.append, Plan.operations, Code.eval, List.isEmpty_cons, Bool.false_eq_true,
        ↓reduceIte, evalOperations_singleton, List.singleton_append, eval_dup, pure_bind,
        Nat.add_zero, hreceiver, bind_map_left, eval_discard, hrest]
      exact (map_bind (· :: stack) _ _).symm

theorem argumentsPlan_yields (hl : env.library.Plain) {resolve : String → Resolution}
    {places : String → Variable} (hp : Locates resolve places)
    (parts : List KeywordPart) (h : env.EscapeFree resolve (argumentReferences parts)) (k : Nat)
    (hr : (argumentsPlan env resolve parts names k).All Operation.Readable) :
    YieldsAll env rt act x (argumentsPlan env resolve parts names k)
      (argumentsMeaning env rt act names places k parts) := by
  cases parts with
  | nil =>
    intro stack
    rfl
  | cons part rest =>
    obtain ⟨keyword, argument⟩ := part
    cases argument with
    | block parameters body span =>
      exact YieldsAll.cons env rt act x (BlockLiteral.plan_yields env rt act x names _ k hr.1)
        (argumentsPlan_yields hl hp rest h.right _ hr.2)
    | _ =>
      exact YieldsAll.cons env rt act x (Expr.plan_yields hl hp _ h.left k hr.1)
        (argumentsPlan_yields hl hp rest h.right _ hr.2)

end

/-- What a statement leaves on the stack: its value, if it is the last one. -/
def leaving (isLast : Bool) (stack : List V) (value : V) : List V :=
  if isLast then value :: stack else stack

theorem eval_settling (isLast : Bool) (v : V) (stack : List V) :
    evalOperations rt (act.locals x)
        (Draft.settling env isLast stack.length (v :: stack).length) (v :: stack) =
      pure (leaving isLast stack v) := by
  cases isLast with
  | true => simp [Draft.settling, leaving, evalOperations_nil]
  | false =>
    rw [List.length_cons, Draft.settling, if_neg (by simp), Nat.add_sub_cancel_left]
    exact evalOperations_singleton rt (act.locals x) .discard ▸ eval_discard rt _ v stack

theorem eval_statement {code : Code} {value : Eval V W V}
    (h : Yields env rt (act.locals x) code [] value) (isLast : Bool) (span : Span)
    (stack : List V) :
    (Code.statement isLast (.region span code)).eval env rt (act.locals x) stack =
      leaving isLast stack <$> catchAnswers env rt code.markers value := by
  have hregion := h.region env rt (act.locals x) span stack
  rw [List.nil_append] at hregion
  rw [Code.eval, hregion, bind_map_left]
  simp only [eval_settling, bind_pure_comp]

/-- A computation that ends in an answer has no result of its own. -/
theorem answering_ne_ok {α : Type} (value : Eval V W V) (w w' : W) (a : α) :
    (do throw (.answered (← value)) : Eval V W α) w ≠ .ok a w' := by
  intro h
  obtain ⟨v, w₁, -, h⟩ := bind_ok h
  cases h

/-- An answer never runs on to the next statement. -/
theorem answer_ne_ok {α : Type} (markers : List String) (value : Eval V W V) (w w' : W) (a : α) :
    catchAnswers env rt markers (do throw (.answered (← value))) w ≠ .ok a w' := by
  unfold catchAnswers
  split
  · split
    · exact answering_ne_ok _ _ _ _
    · simp
  · exact answering_ne_ok value w w' a

theorem eval_answer {code : Code} {value : Eval V W V}
    (h : Yields env rt (act.locals x) code [] value) (isLast : Bool) (span : Span) (number : Nat)
    (stack : List V) (after : V → List V) :
    (Code.statement isLast (.region span (.append (.operations [.line number])
        (.append code (.operations [.areturn]))))).eval env rt (act.locals x) stack =
      after <$> catchAnswers env rt code.markers (do throw (.answered (← value))) := by
  have hcode := h stack
  rw [List.nil_append] at hcode
  have hbody : (Code.append (.operations [.line number])
      (.append code (.operations [.areturn]))).eval env rt (act.locals x) stack =
      after <$> (do throw (.answered (← value)) : Eval V W V) := by
    simp only [Code.eval, evalOperations_singleton, eval_line, pure_bind, hcode, bind_map_left,
      eval_areturn, map_bind]
    rfl
  have hmarkers : (Code.append (.operations [.line number])
      (.append code (.operations [.areturn]))).markers = code.markers := by
    simp [Code.markers]
  rw [Code.eval, Code.eval, hbody, hmarkers, catchAnswers_map, bind_map_left, map_eq_pure_bind]
  exact bind_congr_ok fun a w w' hok => absurd hok (answer_ne_ok env rt _ _ _ _ _)

theorem Code.Fits.readable {c : Code} {markers : List String} (h : c.Fits env markers) {d : Draft}
    (hr : d.reachable = true) (hf : (c.run env d).fault = none) :
    c.All Operation.Readable ∧ (c.run env d).reachable = true :=
  Code.readable_of_run env (h.standard.mono fun _ hop => hop.ne_areturn) hr hf

theorem Statement.plan_eval (hl : env.library.Plain) {resolve : String → Resolution}
    {places : String → Variable} (hp : Locates resolve places)
    (s : Statement) (h : env.EscapeFree resolve s.references) (isLast : Bool) (k : Nat)
    {d : Draft} (hr : d.reachable = true)
    (hf : ((s.plan env resolve isLast names k).run env d).fault = none) (stack : List V) :
    (s.plan env resolve isLast names k).eval env rt (act.locals x) stack =
      leaving isLast stack <$> s.meaning env rt act names places k := by
  cases s with
  | expression value =>
    have hfits := value.plan_fits env names hl h k
    have hread := Code.Fits.readable env (c := .statement isLast (.region value.span _))
      ⟨hfits.standard, rfl⟩ hr hf
    rw [Statement.meaning, ← hfits.markers]
    exact eval_statement env rt act x (value.plan_yields env rt act x names hl hp h k hread.1)
      isLast value.span stack
  | answer value span =>
    have hfits := value.plan_fits env names hl h k
    have hbody := Draft.fault_closeRegion env (Draft.fault_run hf)
    have hline : (d.openRegion.runOperations [.line span.line]).fault = none :=
      Code.fault_run env (Draft.fault_run hbody)
    have hreach := (readable_of_runOperations (by simp) (by rwa [Draft.openRegion_eq]) hline).2
    have hread := hfits.readable env hreach (Draft.fault_run hbody)
    rw [Statement.meaning, ← hfits.markers]
    exact eval_answer env rt act x (value.plan_yields env rt act x names hl hp h k hread.1) isLast
      span span.line stack (leaving isLast stack)

theorem statementsPlan_eval (hl : env.library.Plain) {resolve : String → Resolution}
    {places : String → Variable} (hp : Locates resolve places)
    {ss : List Statement} (hs : ss ≠ [])
    (h : env.EscapeFree resolve (ss.flatMap Statement.references)) (whenEmpty : Eval V W V)
    (k : Nat) {d : Draft} (hr : d.reachable = true)
    (hf : ((statementsPlan env resolve ss names k).run env d).fault = none) (stack : List V) :
    (statementsPlan env resolve ss names k).eval env rt (act.locals x) stack =
      (· :: stack) <$> statementsMeaning env rt act names places whenEmpty k ss := by
  induction ss generalizing k d with
  | nil => exact absurd rfl hs
  | cons s rest ih =>
    have hf₁ : ((s.plan env resolve rest.isEmpty names k).run env d).fault = none :=
      Code.fault_run env hf
    have hstatement := s.plan_eval env rt act x names hl hp h.left rest.isEmpty k hr hf₁ stack
    rw [statementsPlan, Plan.append, Code.eval, hstatement, bind_map_left, statementsMeaning,
      map_bind]
    cases rest with
    | nil => rfl
    | cons next others =>
      -- Only a statement that is no answer is ever followed by another one.
      refine bind_congr_ok fun v w w' hok => ?_
      cases s with
      | expression value =>
        have hfits := value.plan_fits env names hl h.left k
        have hread := Code.Fits.readable env (c := .statement false (.region value.span _))
          ⟨hfits.standard, rfl⟩ hr hf₁
        exact ih (by simp) h.right _ hread.2 hf
      | answer value span => exact absurd hok (answer_ne_ok env rt _ _ _ _ _)

theorem eval_declarations {temporaries : List Ident} (hn : temporaries.length < 65536)
    (h : ∀ op ∈ Operation.declarations env temporaries, op.Readable) (stack : List V) :
    evalOperations rt (act.locals x) (Operation.declarations env temporaries) stack =
      (fun _ => stack) <$>
        (do if !temporaries.isEmpty then
              let _ ← rt.initTemporaries env act temporaries.length
            : Eval V W Unit) := by
  cases temporaries with
  | nil => rfl
  | cons first rest =>
    rw [Operation.declarations, evalOperations_cons, eval_line, pure_bind]
    rw [eval_initTemporaries env rt act x (List.forall_mem_cons.1 h).2, List.isEmpty_cons,
      UInt16.toNat_ofNat_of_lt' hn]
    simp

theorem Sequence.plan_eval (hl : env.library.Plain) {parameters : List Ident}
    {operations : List Operation} {whenEmpty : Eval V W V}
    (hs : ∀ op ∈ operations, op.Standard env.library)
    (hempty : (∀ op ∈ operations, op.Readable) →
      Yields env rt (act.locals x) (.operations operations) [] whenEmpty)
    (s : Sequence) (hn : Addressable parameters s.temporaries) (h : s.EscapeFree env parameters)
    (k : Nat) {d : Draft} (hr : d.reachable = true)
    (hf : ((s.plan env parameters operations names k).run env d).fault = none) :
    (s.plan env parameters operations names k).eval env rt (act.locals x) [] =
      (do throw (.answered (← s.value env rt act names parameters whenEmpty k))) := by
  obtain ⟨body, hplan⟩ : ∃ p : Plan, p =
      if s.statements.isEmpty then .operations (.line s.span.line :: operations)
      else statementsPlan env (lookup parameters s.temporaries) s.statements := ⟨_, rfl⟩
  have hbody : (Code.run env (body names k)
      (d.runOperations (Operation.declarations env s.temporaries))).fault = none := by
    rw [hplan]
    exact Draft.fault_run hf
  obtain ⟨hdeclarations, hr₁⟩ := readable_of_runOperations
    (fun op hop => (Operation.standard_declarations env s.temporaries op hop).ne_areturn) hr
    (Code.fault_run env hbody)
  have hvalue : Yields env rt (act.locals x) (body names k) [] (statementsMeaning env rt act names
      (variableOf parameters s.temporaries) whenEmpty k s.statements) := by
    cases hss : s.statements with
    | nil =>
      rw [hss, List.isEmpty_nil, if_pos rfl] at hplan
      subst hplan
      have hread := (readable_of_runOperations
        (List.forall_mem_cons.2 ⟨by simp, fun op hop => (hs op hop).ne_areturn⟩) hr₁ hbody).1
      exact (hempty (List.forall_mem_cons.1 hread).2).line env rt _ s.span.line
    | cons first rest =>
      rw [List.isEmpty_eq_false_iff.2 (by simp [hss]), if_neg (by simp)] at hplan
      subst hplan
      intro stack
      rw [← hss]
      exact statementsPlan_eval env rt act x names hl hn.locates (by simp [hss]) h whenEmpty k hr₁
        hbody stack
  have hreturn := hvalue []
  rw [List.nil_append] at hreturn
  simp only [Sequence.plan, ← hplan, Plan.append, Plan.operations, Code.eval, Nat.add_zero,
    eval_declarations env rt act x hn.temporaries hdeclarations, bind_map_left, hreturn,
    evalOperations_singleton, eval_areturn, Sequence.value]
  cases s.temporaries.isEmpty <;> simp only [Bool.not_true, Bool.not_false, Bool.false_eq_true,
    ↓reduceIte, bind_assoc, pure_bind]

end

section

variable {names : Nat → String}

/-- What holds of the operations of the support library and of returns holds along statements. -/
theorem statementsPlan_all {Q : Operation → Prop} (hQ : ∀ op, op.Standard env.library → Q op)
    (hreturn : Q .areturn) (hl : env.library.Plain) {resolve : String → Resolution}
    {ss : List Statement} (h : env.EscapeFree resolve (ss.flatMap Statement.references)) (k : Nat) :
    (statementsPlan env resolve ss names k).All Q := by
  induction ss generalizing k with
  | nil => simp [statementsPlan, Plan.operations, Code.All]
  | cons s rest ih =>
    refine ⟨?_, ih h.right _⟩
    cases s with
    | expression value => exact (value.plan_fits env names hl h.left k).standard.mono hQ
    | answer value span =>
      exact ⟨List.forall_mem_singleton.2 (hQ _ trivial),
        (value.plan_fits env names hl h.left k).standard.mono hQ,
        List.forall_mem_singleton.2 hreturn⟩

theorem Sequence.plan_all {Q : Operation → Prop} (hQ : ∀ op, op.Standard env.library → Q op)
    (hreturn : Q .areturn) (hl : env.library.Plain) {parameters : List Ident}
    {operations : List Operation} (hs : ∀ op ∈ operations, op.Standard env.library) {s : Sequence}
    (h : s.EscapeFree env parameters) (k : Nat) :
    (s.plan env parameters operations names k).All Q := by
  refine ⟨fun op hop => hQ op (Operation.standard_declarations env _ op hop), ?_, ?_⟩
  · split_ifs
    · exact List.forall_mem_cons.2 ⟨hQ _ trivial, fun op hop => hQ op (hs op hop)⟩
    · exact statementsPlan_all env hQ hreturn hl h _
  · exact List.forall_mem_singleton.2 hreturn

/-- The body of a sequence's method computes the meaning of the sequence. -/
theorem Sequence.computes (hl : env.library.Plain) {V W : Type} (rt : Runtime V W)
    (act : Activation V) (x : V) {parameters : List Ident} {operations : List Operation}
    {whenEmpty : Eval V W V} (hs : ∀ op ∈ operations, op.Standard env.library)
    (hempty : (∀ op ∈ operations, op.Readable) →
      Yields env rt (act.locals x) (.operations operations) [] whenEmpty)
    {s : Sequence} (hn : Addressable parameters s.temporaries) (h : s.EscapeFree env parameters)
    {k : Nat} {a b c : String} {body : MethodBody}
    (hfinish : ((s.plan env parameters operations names k).run env
      (env.method [.object a, .object b, .object c])).finish = .ok body) :
    body.Computes rt (act.locals x) (s.meaning env rt act names parameters whenEmpty k) :=
  Code.computes env rt (act.locals x)
    (fun op hop => (Operation.standard_fixed env "referenceNil" op hop).narrow)
    (by simp [VerificationType.isWide, VerificationType.slots]) rfl
    (s.plan_all env (fun _ hop => hop.narrow) trivial hl hs h k) hfinish
    (s.plan_eval env rt act x names hl hs hempty hn h k rfl
      (Draft.finishes_of_finish hfinish).fault)

end

/-- A script without free references to the escape identifier, in its own statements or in those of
its blocks. -/
def Script.EscapeFree (script : Script) : Prop :=
  script.body.EscapeFree env [] ∧
    ∀ literal ∈ script.body.blocks env, literal.body.EscapeFree env literal.parameters

instance (script : Script) : Decidable (script.EscapeFree env) :=
  inferInstanceAs (Decidable (_ ∧ ∀ literal ∈ script.body.blocks env, _))

theorem Sample.escapeFree : Sample.script.EscapeFree Sample.env := by decide

end SmalltalkJvm
