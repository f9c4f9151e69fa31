import SmalltalkJvm.Proofs.Acceptance

/-! # What compiled scripts compute

Every generated method computes the meaning of its sequence, on two conditions. The classes that
stand in descriptors have names which do not end early; otherwise a call takes other operands than
it is given, as long as nothing else in the unit keeps it from compiling. And the names of the
sequence are few enough for slots of 16 bits. Neither condition can be left out.
-/

namespace SmalltalkJvm

open Compile

/-- Every generated method computes the meaning of its own sequence, if that has few enough names:
the script's method that of the script, which without statements returns the receiver, and a
block's method that of the block, which without statements returns nil. The classes that stand in
descriptors have names which do not end early, or else the unit does not compile as a whole. -/
theorem generate_computes_meaning (env : Env) {script : Script} {g : Generated}
    (h : generate env script = .ok g) (hfree : script.EscapeFree env)
    (hlibrary : env.library.Plain ∨ ∃ u, compileUnit env.settings env.unit script = .ok u)
    {V W : Type} (rt : Runtime V W) (act : Activation V) (x : V) :
    (Addressable [] script.body.temporaries →
      g.sendMessages.body.Computes rt (act.locals x)
        (script.body.meaning env rt act g.names [] (pure act.self) 0)) ∧
      g.blocks.length = (script.body.blocks env).length ∧ (g.blocks.map Method.name).Nodup ∧
      ∀ (i : Nat) (literal : BlockLiteral) (method : Method),
        (script.body.blocks env)[i]? = some literal → g.blocks[i]? = some method →
        Addressable literal.parameters literal.body.temporaries →
        method.body.Computes rt (act.locals x)
          (literal.body.meaning env rt act g.names literal.parameters
            (rt.fixed env act "referenceNil") (i - (literal.body.blocks env).length)) := by
  have hl : env.library.Plain := by
    rcases hlibrary with hl | ⟨u, hu⟩
    · exact hl
    · exact plain_of_compileUnit hu
  have houtlined := generate_outlined env h
  refine ⟨fun hn => ?_, houtlined.blocks.length_eq, houtlined.nodup, ?_⟩
  · have hself : ∀ op ∈ Operation.pseudo env .self, op.Standard env.library :=
      List.forall_mem_singleton.2 trivial
    exact Sequence.computes env hl rt act x hself (yields_pseudo env rt act x) hn hfree.1
      houtlined.body
  · intro i literal method hliteral hmethod hn
    have hcompiled := houtlined.blocks.compiled env hliteral hmethod
    rw [Nat.zero_add] at hcompiled
    exact Sequence.computes env hl rt act x (Operation.standard_fixed env "referenceNil")
      (yields_fixed env rt act x) hn (hfree.2 literal (List.mem_of_getElem? hliteral))
      hcompiled.body

namespace Sample

/-- `[:y | y + 1]` -/
def next : BlockLiteral :=
  let sum : Expr := .send (.reference "y" span)
    (.binary ⟨"+", span⟩ (.literal .number "1" span) span) span
  ⟨.value, [⟨":y", span⟩], ⟨[], [.expression sum], span⟩, span⟩

/-- `| n | n := 3 negated; abs. ^ self do: [:y | y + 1]` -/
def counting : Script :=
  let size : Expr := .cascade (.literal .number "3" span)
    [.unary ⟨"negated", span⟩, .unary ⟨"abs", span⟩] span
  let loop : Message := .keyword [⟨⟨"do:", span⟩, .block next.parameters next.body span⟩] span
  ⟨⟨[⟨"n", span⟩], [.expression (.assign ⟨"n", span⟩ size span),
    .answer (.send (.pseudo .self span) loop span) span], span⟩, span⟩

variable {V W : Type} (rt : Runtime V W) (act : Activation V) (names : Nat → String)

theorem meaning_next : next.body.meaning env rt act names next.parameters
    (rt.fixed env act "referenceNil") 0 = returning (do
      let y ← rt.onContext env act "argumentAt" "(I)Lst/core/PrimObject;" [rt.slot 0]
      let one ← rt.literal env act .number "1"
      rt.send env false "+" y [one]) := by
  have hy : variableOf [⟨":y", span⟩] [] "y" = .argument 0 := by decide
  simp [next, Sequence.meaning, Sequence.value, statementsMeaning, Statement.meaning, Expr.meaning,
    Message.meaning, Expr.attached, Message.attached, Message.isKeyword, Expr.isSuper,
    catchAnswers_nil, catchKeywordAnswers, hy, Runtime.reference]
  rfl

theorem meaning_counting : counting.body.meaning env rt act names [] (pure act.self) 0 =
    returning (do
      let _ ← rt.initTemporaries env act 1
      let three ← rt.literal env act .number "3"
      let _ ← rt.send env false "negated" three []
      let n ← rt.send env false "abs" three []
      let _ ← rt.store env act 0 n
      let block ← rt.block env act next (names 0)
      throw (.answered (← rt.send env false "do:" act.self [block]))) := by
  have hn : variableOf [] [⟨"n", span⟩] "n" = .temporary 0 := by decide
  have hrole : roleOf env "do:" = .value := by decide
  have hnext : (⟨.value, next.parameters, next.body, span⟩ : BlockLiteral) = next := rfl
  have hescapes : next.escapes = false := rfl
  have hblocks : next.body.blocks env = [] := rfl
  have hselector : selectorOf [⟨⟨"do:", span⟩, .block next.parameters next.body span⟩] = "do:" := by
    decide
  simp [counting, Sequence.meaning, Sequence.value, statementsMeaning, Statement.meaning,
    Statement.blocks, Expr.meaning, Expr.attached, Expr.blocks, Expr.isSuper, Message.meaning,
    Message.attached, Message.blocks, Message.isKeyword, messageBlocks, cascadeMeaning,
    cascadeAttached, argumentsMeaning, argumentsAttached, BlockLiteral.attached,
    catchAnswers_nil, catchKeywordAnswers, Runtime.pseudo, hn, hrole, hnext, hescapes,
    hblocks, hselector]

end Sample

theorem computes_meaning_of_sample : ∃ g method, generate Sample.env Sample.counting = .ok g ∧
    Sample.counting.EscapeFree Sample.env ∧ Sample.env.library.Plain ∧ g.blocks = [method] ∧
    ∀ {V W : Type} (rt : Runtime V W) (act : Activation V) (x : V),
      g.sendMessages.body.Computes rt (act.locals x) (returning do
        let _ ← rt.initTemporaries Sample.env act 1
        let three ← rt.literal Sample.env act .number "3"
        let _ ← rt.send Sample.env false "negated" three []
        let n ← rt.send Sample.env false "abs" three []
        let _ ← rt.store Sample.env act 0 n
        let block ← rt.block Sample.env act Sample.next method.name
        throw (.answered (← rt.send Sample.env false "do:" act.self [block]))) ∧
      method.body.Computes rt (act.locals x) (returning do
        let y ← rt.onContext Sample.env act "argumentAt" "(I)Lst/core/PrimObject;" [rt.slot 0]
        let one ← rt.literal Sample.env act .number "1"
        rt.send Sample.env false "+" y [one]) := by
  have hfree : Sample.counting.EscapeFree Sample.env := by decide
  obtain ⟨g, hg⟩ := Script.generates _ Sample.legal hfree (by decide)
  have hlength : g.blocks.length = 1 := (generate_outlined _ hg).blocks.length_eq
  obtain ⟨method, hblocks⟩ := List.length_eq_one_iff.1 hlength
  refine ⟨g, method, hg, hfree, Sample.legal.plain, hblocks, fun rt act x => ?_⟩
  obtain ⟨hscript, -, -, hblock⟩ :=
    generate_computes_meaning _ hg hfree (.inl Sample.legal.plain) rt act x
  have hname : g.names 0 = method.name := by rw [Generated.names, hblocks]; rfl
  constructor
  · have hmeaning := hscript ⟨by decide, by decide⟩
    rwa [Sample.meaning_counting, hname] at hmeaning
  · have hmeaning := hblock 0 Sample.next method rfl (by rw [hblocks]; rfl) ⟨by decide, by decide⟩
    rwa [show 0 - (Sample.next.body.blocks Sample.env).length = 0 from rfl, Sample.meaning_next]
      at hmeaning

section

variable {V W : Type} (rt : Runtime V W) (locals : List V) (b : MethodBody)

/-- Where the machine is after `n` steps, or where it has stopped before. -/
def MethodBody.run : Nat → Config V W → Config V W
  | 0, c => c
  | n + 1, c =>
    match b.step rt locals c with
    | some c' => run n c'
    | none => c

/-- The value that is returned, on the left, or the exception that is thrown. -/
def Config.outcome? : Config V W → Option (V ⊕ V)
  | .returned value _ => some (.inl value)
  | .thrown exception _ => some (.inr exception)
  | _ => none

def resultOutcome : EStateM.Result V W V → V ⊕ V
  | .ok value _ => .inl value
  | .error exception _ => .inr exception

variable {rt locals b}

/-- The machine is deterministic: where it stops, every run stops. -/
theorem MethodBody.run_of_reaches {c c' : Config V W} (h : b.Reaches rt locals c c')
    (hfinal : b.step rt locals c' = none) {n : Nat}
    (hstopped : b.step rt locals (b.run rt locals n c) = none) : b.run rt locals n c = c' := by
  induction h using Relation.ReflTransGen.head_induction_on generalizing n with
  | refl =>
    cases n with
    | zero => rfl
    | succ n => rw [run, hfinal]
  | head hstep _ ih =>
    cases n with
    | zero =>
      rw [run, hstep] at hstopped
      cases hstopped
    | succ n =>
      simp only [run, hstep] at hstopped ⊢
      exact ih hstopped

theorem MethodBody.Computes.outcome_eq {action : EStateM V W V} (h : b.Computes rt locals action)
    {n : Nat} {world : W} {o : V ⊕ V}
    (ho : (b.run rt locals n (.running 0 [] world)).outcome? = some o) :
    o = resultOutcome (action world) := by
  have hstopped : b.step rt locals (b.run rt locals n (.running 0 [] world)) = none := by
    revert ho
    cases b.run rt locals n (.running 0 [] world) <;> simp [Config.outcome?, step]
  have hreaches := h world
  cases haction : action world <;> rw [haction] at hreaches <;>
    · rw [run_of_reaches hreaches rfl hstopped] at ho
      exact (Option.some.inj ho).symm

end

namespace Sample

/-- The name of the context class ends early in a descriptor, which then has two parameters for
it. -/
def loose : Env := ⟨{ library := { context := "a;Lb" } }, unit⟩

/-- `t := 1` -/
def store : Expr := .assign ⟨"t", span⟩ (.literal .number "1" span) span

/-- `| t | t := 1` -/
def storing : Script := ⟨⟨[⟨"t", span⟩], [.expression store], span⟩, span⟩

/-- Every call returns the name of its method. -/
def naming : Runtime String Unit where
  text := id
  number _ := ""
  field member := pure member.name
  call _ method _ := pure method.name
  link site _ := pure site.name
  isInstance _ _ := false

theorem sequence_storing : ∃ s, sequence loose pushReceiver storing.body
    { State.initial loose with scopes := ⟨[{}]⟩ } = .ok () s := by
  have hdecides : Decides (sequence loose pushReceiver storing.body)
      { State.initial loose with scopes := ⟨[{}]⟩ } True := by
    refine Decides.congr ((declareTemporaries_decides loose rfl Scope.declares_empty).bind
      (B := True) fun _ s₁ hdeclare _ => ?_) (by decide)
    obtain ⟨top, hdeclares, hs₁⟩ := declareTemporaries_ok loose rfl Scope.declares_empty hdeclare
    have hlookup (name : String) : s₁.scopes.resolve name = lookup [] [⟨"t", span⟩] name := by
      rw [hs₁]
      exact hdeclares.resolve_eq name
    have hstore {s : State} (hs : Ready [] [⟨"t", span⟩] s) :
        Decides (receiver loose store) s True :=
      Decides.congr ((assignable_decides hs ⟨"t", span⟩).andThen fun _ _ _ _ => ⟨_, _, rfl⟩)
        (by decide)
    have hstatement : Decides (Compile.statement loose true (.expression store)) s₁ True :=
      statementWith_decides hlookup
        (fun s hs => asValue_decides store (by decide) hs (hstore hs) span)
        (keeps_asValue loose _ (keeps_receiver loose store))
    exact (hstatement.andThen fun _ _ _ _ => ⟨_, _, rfl⟩).andThen fun _ _ _ _ => ⟨_, _, rfl⟩
  obtain ⟨⟨⟩, s, hs⟩ := hdecides.exists_ok trivial
  exact ⟨s, hs⟩

theorem generates_storing : ∃ g, generate loose storing = .ok g := by
  obtain ⟨s, hs⟩ := sequence_storing
  have hself (s : State) : pushReceiver s =
      .ok () (s.withDraft (s.current.draft.runOperations [.load 1])) := rfl
  obtain ⟨names, hcurrent⟩ := current_of_sequence hself rfl rfl Scope.declares_empty hs
  -- There are no blocks, so the code is the same for all names.
  have hplan : storing.body.plan loose [] [.load 1] names (State.initial loose).blocks.size =
      storing.body.plan loose [] [.load 1] (fun _ => "") 0 := rfl
  rw [hplan] at hcurrent
  have hok : (s.current.finish span).isOk = true := by
    rw [hcurrent]
    decide +kernel
  obtain ⟨b, hfinish⟩ := exists_ok_of_isOk hok
  exact generate_of_sequence loose hs hfinish

/-- The call that stores takes the value as well, and nil is returned in its place. -/
theorem outcome_storing {g : Generated} (h : generate loose storing = .ok g) :
    (g.sendMessages.body.run naming ["", "", ""] 16 (.running 0 [] ())).outcome? =
      some (.inl "referenceNil") := by
  have houtcome := holds_of_outlines (p := fun g =>
    (g.sendMessages.body.run naming ["", "", ""] 16 (.running 0 [] ())).outcome? =
      some (.inl "referenceNil")) h (by decide) (by decide +kernel)
  exact of_decide_eq_true houtcome

/-- Declares some temporaries and does nothing with them. -/
def declaring (n : Nat) : Script :=
  ⟨⟨(List.range n).map fun i => ⟨BlockName.numbered i, span⟩, [], span⟩, span⟩

/-- Every call throws its last operand. -/
def throwing : Runtime Int32 Unit where
  text _ := 0
  number := id
  field _ := pure 0
  call _ _ operands := throw (operands.getLast?.getD 0)
  link _ _ := pure 0
  isInstance _ _ := false

theorem escapeFree_declaring (n : Nat) : (declaring n).EscapeFree env :=
  ⟨List.forall_mem_nil _, List.forall_mem_nil _⟩

theorem bareName_numbered (i : Nat) : bareName (BlockName.numbered i) = BlockName.numbered i := by
  simp [bareName, BlockName.toList_numbered]

theorem generates_declaring (n : Nat) : ∃ g, generate env (declaring n) = .ok g := by
  refine Script.generates env legal (escapeFree_declaring n) ?_
  have hnodup : ((List.range n).map BlockName.numbered).Nodup :=
    List.Nodup.map (fun _ _ => BlockName.numbered_injective) List.nodup_range
  simpa [Script.accepted, declaring, Sequence.accepted, statementsAccepted, bareNames,
    Function.comp_def, bareName_numbered] using hnodup

/-- Makes some slots and returns the receiver. -/
def slotsMade (count : UInt16) : Code :=
  .append (.operations (.line 1 :: Operation.initTemporaries env count))
    (.append (.operations [.line 1, .load 1]) (.operations [.areturn]))

theorem plan_declaring (n : Nat) (names : Nat → String) :
    (declaring (n + 1)).body.plan env [] [.load 1] names 0 = slotsMade (.ofNat (n + 1)) := by
  have hdeclarations : Operation.declarations env (declaring (n + 1)).body.temporaries =
      .line 1 :: Operation.initTemporaries env (.ofNat (n + 1)) := by
    simp [declaring, List.range_succ_eq_map, Operation.declarations]
    rfl
  rw [Sequence.plan, Plan.append, Plan.operations, hdeclarations]
  rfl

theorem outcome_declaring {g : Generated} (h : generate env (declaring 65537) = .ok g) :
    (g.sendMessages.body.run throwing [0, 0, 0] 16 (.running 0 [] ())).outcome? =
      some (.inr 1) := by
  have hplan : (declaring 65537).body.plan env [] [.load 1] g.names 0 = slotsMade 1 :=
    plan_declaring 65536 g.names
  have hbody := (generate_outlined env h).body
  simp only [hplan] at hbody
  have houtcome : (((slotsMade 1).run env (env.method env.scriptLocals)).finish.toOption.map
      fun b => (b.run throwing [0, 0, 0] 16 (.running 0 [] ())).outcome?) =
        some (some (.inr 1)) := by decide +kernel
  rw [hbody] at houtcome
  exact Option.some.inj houtcome

theorem meaning_declaring (n : Nat) {V W : Type} (rt : Runtime V W) (act : Activation V)
    (names : Nat → String) :
    (declaring (n + 1)).body.meaning env rt act names [] (pure act.self) 0 =
      returning (do
        let _ ← rt.initTemporaries env act (n + 1)
        pure act.self) := by
  simp [declaring, Sequence.meaning, Sequence.value, statementsMeaning]

end Sample

/-- A class name that ends early, and a temporary more than there are slots, are enough for a script
to compile to a method that does something else: the one answers nil for the value that it stores,
the other makes one slot in the place of 65537. -/
theorem generate_miscomputes :
    (∃ g, generate Sample.loose Sample.storing = .ok g ∧
      Sample.storing.EscapeFree Sample.loose ∧
      ∃ (rt : Runtime String Unit) (act : Activation String) (x : String),
        ¬g.sendMessages.body.Computes rt (act.locals x)
          (Sample.storing.body.meaning Sample.loose rt act g.names [] (pure act.self) 0)) ∧
    ∃ g, generate Sample.env (Sample.declaring 65537) = .ok g ∧
      (Sample.declaring 65537).EscapeFree Sample.env ∧
      ∃ (rt : Runtime Int32 Unit) (act : Activation Int32) (x : Int32),
        ¬g.sendMessages.body.Computes rt (act.locals x)
          ((Sample.declaring 65537).body.meaning Sample.env rt act g.names [] (pure act.self)
            0) := by
  constructor
  · obtain ⟨g, hg⟩ := Sample.generates_storing
    refine ⟨g, hg, by decide, Sample.naming, ⟨"", ""⟩, "", fun hcomputes => ?_⟩
    have houtcome := hcomputes.outcome_eq (Sample.outcome_storing hg)
    have hmeaning : Sample.storing.body.meaning Sample.loose Sample.naming ⟨"", ""⟩ g.names []
        (pure "") 0 () = .ok "smalltalkNumber" () := rfl
    exact absurd (houtcome.trans (congrArg resultOutcome hmeaning)) (by decide)
  · obtain ⟨g, hg⟩ := Sample.generates_declaring 65537
    refine ⟨g, hg, Sample.escapeFree_declaring _, Sample.throwing, ⟨0, 0⟩, 0, fun hcomputes => ?_⟩
    have houtcome := hcomputes.outcome_eq (Sample.outcome_declaring hg)
    have hmeaning : (Sample.declaring 65537).body.meaning Sample.env Sample.throwing ⟨0, 0⟩ g.names
        [] (pure 0) 0 () = .error 65537 () :=
      congrFun (Sample.meaning_declaring 65536 Sample.throwing ⟨0, 0⟩ g.names) ()
    exact absurd (houtcome.trans (congrArg resultOutcome hmeaning)) (by decide)

end SmalltalkJvm
