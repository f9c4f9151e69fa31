import SmalltalkJvm.Proofs.Constituents
import SmalltalkJvm.Proofs.NameSearch

/-! # The names of a script's blocks

The blocks of a script are named one after another as the compiler comes to them, a block before
those inside it, each from the symbol of the innermost keyword message around it. So the names
follow from the script's symbols alone, and the searches for them are one sequence: over a whole
compilation, whether it succeeds or fails on the way, no number is tried twice.
-/

namespace SmalltalkJvm

open Compile BlockName

def keywordSymbol (parts : List KeywordPart) : Option String :=
  parts.head?.bind fun part => part.argument.symbol?

mutual

/-- For each block, in the order in which they are named, the symbol that it is named from, given
that of the message around the expression. -/
def Expr.blockSymbols : Expr → Option String → List (Option String)
  | .literal .., _ | .pseudo .., _ | .reference .., _ | .primitive .., _ => []
  | .block _ body _, symbol => symbol :: body.blockSymbols symbol
  | .send target m _, symbol => target.blockSymbols symbol ++ m.blockSymbols symbol
  | .cascade target messages _, symbol =>
    target.blockSymbols symbol ++ messageSymbols messages symbol
  | .assign _ value _, symbol => value.blockSymbols symbol
  | .paren inner _, symbol => inner.blockSymbols symbol

def Message.blockSymbols : Message → Option String → List (Option String)
  | .unary _, _ => []
  | .binary _ argument _, symbol => argument.blockSymbols symbol
  | .keyword parts _, _ => argumentSymbols parts (keywordSymbol parts)

def messageSymbols : List Message → Option String → List (Option String)
  | [], _ => []
  | m :: rest, symbol => m.blockSymbols symbol ++ messageSymbols rest symbol

def argumentSymbols : List KeywordPart → Option String → List (Option String)
  | [], _ => []
  | ⟨_, argument⟩ :: rest, symbol => argument.blockSymbols symbol ++ argumentSymbols rest symbol

def Sequence.blockSymbols : Sequence → Option String → List (Option String)
  | ⟨_, ss, _⟩, symbol => statementSymbols ss symbol

def statementSymbols : List Statement → Option String → List (Option String)
  | [], _ => []
  | s :: rest, symbol => s.blockSymbols symbol ++ statementSymbols rest symbol

def Statement.blockSymbols : Statement → Option String → List (Option String)
  | .expression value, symbol | .answer value _, symbol => value.blockSymbols symbol

end

/-- The arguments of a directive are literals. -/
theorem argumentSymbols_of_directive {name : String} {parts : List KeywordPart}
    {texts : List String} (h : parts.mapM (directiveArgument name) = .ok texts)
    (symbol : Option String) : argumentSymbols parts symbol = [] := by
  have htexts := except_mapM_ok h
  clear h
  induction htexts with
  | nil => rfl
  | @cons part text parts texts hpart _ ih =>
    obtain ⟨keyword, argument⟩ := part
    rw [argumentSymbols, ih, List.append_nil]
    cases argument with
    | literal kind text span => rfl
    | _ => cases hpart

def State.supply (s : State) : Supply := ⟨s.taken, s.nextBlock⟩

/-- The symbols of the open keyword messages, innermost first. -/
def State.symbols (s : State) : List (Option String) := s.pending.map PendingSend.symbol

theorem State.symbol?_eq (s : State) : s.symbol? = s.symbols.head?.bind id := by
  rw [symbol?, symbols]
  cases s.pending <;> rfl

namespace Compile

section

variable {α β : Type}

def endOf : EStateM.Result CompileError State α → State
  | .ok _ s | .error _ s => s

/-- An action that leaves alone what the names of blocks depend on. -/
def Quiet (a : Compile α) : Prop :=
  ∀ s, (endOf (a s)).supply = s.supply ∧ (endOf (a s)).symbols = s.symbols

theorem Drafts.quiet {a : Compile α} (h : Drafts a) : Quiet a := by
  intro s
  obtain ⟨d, ⟨x, hx⟩ | ⟨e, he, -⟩⟩ := h s
  · rw [hx]
    exact ⟨rfl, rfl⟩
  · rw [he]
    exact ⟨rfl, rfl⟩

protected theorem Quiet.pure (x : α) : Quiet (pure x) := fun _ => ⟨rfl, rfl⟩

protected theorem Quiet.throw (e : CompileError) : Quiet (throw e : Compile α) :=
  fun _ => ⟨rfl, rfl⟩

protected theorem Quiet.emit (step : Draft.Step) : Quiet (emit step) := fun _ => ⟨rfl, rfl⟩

protected theorem Quiet.bind {a : Compile α} {k : α → Compile β} (ha : Quiet a)
    (hk : ∀ x, Quiet (k x)) : Quiet (a >>= k) := by
  intro s
  have h := ha s
  cases hx : a s with
  | error e s₁ =>
    rw [hx] at h
    rwa [bind_of_error hx]
  | ok x s₁ =>
    rw [hx] at h
    rw [bind_of_ok hx]
    exact ⟨(hk x s₁).1.trans h.1, (hk x s₁).2.trans h.2⟩

protected theorem Quiet.ofExcept (x : Except CompileError α) : Quiet (ofExcept x) := by
  cases x with
  | error e => exact .throw e
  | ok a => exact .pure a

protected theorem Quiet.forM {f : α → Compile Unit} (h : ∀ x, Quiet (f x)) (xs : List α) :
    Quiet (xs.forM f) := by
  induction xs with
  | nil => exact .pure ()
  | cons x xs ih => exact (h x).bind fun _ => ih

end

variable (env : Env)

theorem quiet_closeRegion : Quiet (closeRegion env) := by
  intro s
  cases hr : s.current.regions with
  | nil =>
    have hclose : closeRegion env s = .error (.internal .noOpenRegion {}) s := by
      refine bind_of_error ?_ _
      rw [popRegion, hr]
    rw [hclose]
    exact ⟨rfl, rfl⟩
  | cons region rest =>
    rw [closeRegion_eq env hr]
    exact ⟨rfl, rfl⟩

theorem quiet_declare (kind : SlotKind) (ident : Ident) : Quiet (declare kind ident) := by
  intro s
  unfold declare
  split <;> exact ⟨rfl, rfl⟩

theorem quiet_declareTemporaries (temporaries : List Ident) :
    Quiet (declareTemporaries env temporaries) := by
  cases temporaries with
  | nil => exact .pure ()
  | cons first rest =>
    exact (Quiet.forM (quiet_declare .temporary) _).bind fun _ _ => ⟨rfl, rfl⟩

theorem quiet_leaveMethod (span : Span) : Quiet (leaveMethod span) := by
  intro s
  unfold leaveMethod
  split
  · exact ⟨rfl, rfl⟩
  · split <;> exact ⟨rfl, rfl⟩

theorem quiet_pushBlock (role : BlockRole) (answers : Bool) (name : String) (span : Span) :
    Quiet (pushBlock env role answers name span) := by
  refine (Quiet.emit _).bind fun _ => (Quiet.emit _).bind fun _ => (Quiet.emit _).bind fun _ => ?_
  split
  · exact .emit _
  · refine Quiet.bind ?_ fun marker => (Quiet.emit _).bind fun _ => (Quiet.emit _).bind fun _ => ?_
    · exact (Quiet.ofExcept _).bind fun _ _ => ⟨rfl, rfl⟩
    · intro s
      unfold attachMarker
      split <;> exact ⟨rfl, rfl⟩
  · exact .emit _

/-- An action that names a block for each of some symbols, told from that of the innermost message,
or fails after the first few of them. -/
structure Asks {α : Type} (symbols : Option String → List (Option String)) (a : Compile α) :
    Prop where
  granted {s s' : State} {x : α} (h : a s = .ok x s') :
    s'.supply = s.supply.afterNames (symbols s.symbol?) ∧ s'.symbols = s.symbols
  stopped {s s' : State} {e : CompileError} (h : a s = .error e s') :
    ∃ asked, asked <+: symbols s.symbol? ∧ s'.supply = s.supply.afterNames asked

section

variable {α β : Type} {f g : Option String → List (Option String)}

theorem Quiet.asks {a : Compile α} (h : Quiet a) : Asks (fun _ => []) a where
  granted {s _ _} ha := by
    have hs := h s
    rwa [ha] at hs
  stopped {s _ _} ha := by
    have hs := h s
    rw [ha] at hs
    exact ⟨[], List.nil_prefix, hs.1⟩

protected theorem Asks.bind {a : Compile α} {k : α → Compile β} (ha : Asks f a)
    (hk : ∀ x, Asks g (k x)) : Asks (fun symbol => f symbol ++ g symbol) (a >>= k) where
  granted {s s' x} h := by
    obtain ⟨y, s₁, hy, h⟩ := bind_ok h
    obtain ⟨hsupply₁, hsymbols₁⟩ := ha.granted hy
    obtain ⟨hsupply, hsymbols⟩ := (hk y).granted h
    refine ⟨?_, hsymbols.trans hsymbols₁⟩
    rw [hsupply, hsupply₁, s₁.symbol?_eq, hsymbols₁, ← s.symbol?_eq]
    exact (List.foldl_append ..).symm
  stopped {s s' e} h := by
    rcases bind_error h with hy | ⟨y, s₁, hy, h⟩
    · obtain ⟨asked, hasked, hsupply⟩ := ha.stopped hy
      exact ⟨asked, hasked.trans (List.prefix_append ..), hsupply⟩
    · obtain ⟨hsupply₁, hsymbols₁⟩ := ha.granted hy
      obtain ⟨asked, hasked, hsupply⟩ := (hk y).stopped h
      rw [s₁.symbol?_eq, hsymbols₁, ← s.symbol?_eq] at hasked
      refine ⟨f s.symbol? ++ asked, (List.prefix_append_right_inj _).2 hasked, ?_⟩
      rw [hsupply, hsupply₁]
      exact (List.foldl_append ..).symm

/-- What names no block may come first. -/
theorem Quiet.then {a : Compile α} {k : α → Compile β} (ha : Quiet a) (hk : ∀ x, Asks g (k x)) :
    Asks g (a >>= k) :=
  ha.asks.bind hk

theorem Asks.before {a : Compile α} {k : α → Compile β} (ha : Asks f a) (hk : ∀ x, Quiet (k x)) :
    Asks f (a >>= k) := by
  have h := ha.bind fun x => (hk x).asks
  simpa only [List.append_nil] using h

theorem Asks.check {p : Prop} [Decidable p] {a : Compile α} (e : CompileError) (h : Asks f a) :
    Asks f (do
      if p then throw e
      a) := by
  split_ifs
  · exact (Quiet.throw e).then fun _ => h
  · exact h

theorem asks_asValue (span : Span) {expression : Compile Receiver} (h : Asks f expression) :
    Asks f (asValue env span expression) := by
  refine h.before fun r => ?_
  split_ifs
  · exact .throw _
  · exact .pure ()

theorem asks_inRegion (wanted : Bool) (span : Span) {action : Compile Unit} (h : Asks f action) :
    Asks f (inRegion env wanted span action) := by
  cases wanted with
  | false => exact h
  | true =>
    exact Quiet.then (a := openRegion span) (fun _ => ⟨rfl, rfl⟩) fun _ =>
      h.before fun _ => quiet_closeRegion env

theorem asks_statementWith (isLast : Bool) (span : Span) {body : Compile Unit} (h : Asks f body) :
    Asks f (statementWith env isLast span body) :=
  Quiet.then (a := stackDepth) (fun _ => ⟨rfl, rfl⟩) fun base =>
    Quiet.then (a := openRegion span) (fun _ => ⟨rfl, rfl⟩) fun _ =>
      h.before fun _ => (quiet_closeRegion env).bind fun _ =>
        (Drafts.total fun s => ⟨(), _, settle_ok env isLast base s⟩).quiet

theorem asks_nameBlock : Asks (fun symbol => [symbol]) nameBlock where
  granted h := by
    cases h
    exact ⟨rfl, rfl⟩
  stopped h := by cases h

/-- A block is named before those in its sequence. -/
theorem asks_block (role : BlockRole) (parameters : List Ident) (answers : Bool) (span : Span)
    {sequence : Compile Unit} (h : Asks f sequence) :
    Asks (fun symbol => symbol :: f symbol)
      (block env role parameters answers span sequence) :=
  asks_nameBlock.bind fun _ =>
    Quiet.then (a := enterMethod _) (fun _ => ⟨rfl, rfl⟩) fun _ =>
      Quiet.then (a := pushScope) (fun _ => ⟨rfl, rfl⟩) fun _ =>
        (Quiet.forM (quiet_declare .argument) parameters).then fun _ =>
          h.before fun _ => Quiet.bind (a := popScope) (fun _ => ⟨rfl, rfl⟩) fun _ =>
            (quiet_leaveMethod span).bind fun _ =>
              Quiet.bind (a := modify _) (fun _ => ⟨rfl, rfl⟩) fun _ => quiet_pushBlock env _ _ _ _

def noted : List KeywordPart → Compile Unit
  | [] => pure ()
  | part :: rest => do
    argument env part.keyword.name part.argument
    arguments env false rest

theorem asks_arguments_of_noted {parts : List KeywordPart} (h : Asks f (noted env parts)) :
    Asks f (arguments env false parts) := by
  cases parts with
  | nil => exact h
  | cons part rest =>
    rw [arguments_cons]
    refine Quiet.then (fun s => ⟨rfl, ?_⟩) fun _ => h
    change (s.pending.modifyHead _).map PendingSend.symbol = s.pending.map PendingSend.symbol
    cases s.pending <;> rfl

/-- While its arguments are compiled, a keyword message has the symbol of the first one. -/
theorem exists_noted (parts : List KeywordPart) (span : Span) (s : State) :
    ∃ s₁ : State, (∀ k : Unit → Compile α,
      (openSend span >>= fun _ => arguments env true parts >>= k) s = (noted env parts >>= k) s₁) ∧
      s₁.supply = s.supply ∧ s₁.symbols = keywordSymbol parts :: s.symbols := by
  cases parts with
  | nil => exact ⟨_, fun _ => rfl, rfl, rfl⟩
  | cons part rest =>
    rw [arguments_cons, keywordSymbol, List.head?_cons, Option.bind_some]
    unfold notePart
    cases part.argument.symbol? <;> exact ⟨_, fun _ => rfl, rfl, rfl⟩

theorem asks_keyword {parts : List KeywordPart} (h : Asks f (noted env parts)) (span : Span)
    {after : Compile α} (hafter : Quiet after) :
    Asks (fun _ => f (keywordSymbol parts)) (do
      openSend span
      arguments env true parts
      closeSend
      after) where
  granted {s s' x} hs := by
    obtain ⟨s₁, hrun, hsupply, hsymbols⟩ := exists_noted env parts span s
    rw [hrun] at hs
    obtain ⟨⟨⟩, s₂, hparts, hs⟩ := bind_ok hs
    obtain ⟨hsupply₂, hsymbols₂⟩ := h.granted hparts
    rw [s₁.symbol?_eq, hsymbols, hsupply] at hsupply₂
    obtain ⟨hsupply', hsymbols'⟩ :=
      hafter.asks.granted (s := { s₂ with pending := s₂.pending.tail }) hs
    refine ⟨hsupply'.trans hsupply₂, hsymbols'.trans ?_⟩
    -- with the message its symbol is gone again
    change s₂.pending.tail.map _ = _
    rw [List.map_tail, ← State.symbols, hsymbols₂, hsymbols, List.tail_cons]
  stopped {s s' e} hs := by
    obtain ⟨s₁, hrun, hsupply, hsymbols⟩ := exists_noted env parts span s
    rw [hrun] at hs
    rcases bind_error hs with hparts | ⟨⟨⟩, s₂, hparts, hs⟩
    · obtain ⟨asked, hasked, hstopped⟩ := h.stopped hparts
      rw [s₁.symbol?_eq, hsymbols] at hasked
      exact ⟨asked, hasked, by rw [hstopped, hsupply]⟩
    · obtain ⟨hsupply₂, -⟩ := h.granted hparts
      rw [s₁.symbol?_eq, hsymbols, hsupply] at hsupply₂
      have hend := (hafter { s₂ with pending := s₂.pending.tail }).1
      rw [show after { s₂ with pending := s₂.pending.tail } = .error e s' from hs] at hend
      exact ⟨_, List.prefix_rfl, hend.trans hsupply₂⟩

/-- A directive names no block, and one with blocks among its arguments fails. -/
theorem asks_directive (parts : List KeywordPart) (span : Span) :
    Asks (Message.keyword parts span).blockSymbols (message env .escape (.keyword parts span)) := by
  have hquiet : Quiet (message env .escape (.keyword parts span)) :=
    ((drafts_checkParts parts span).bind fun _ => drafts_escape env parts span).quiet
  constructor
  · intro s s' x h
    obtain ⟨kind, texts, -, htexts, -⟩ := Message.Compiles.directive ⟨s, s', fun _ => rfl, h⟩
    rw [Message.blockSymbols, argumentSymbols_of_directive htexts]
    exact hquiet.asks.granted h
  · intro s s' e h
    obtain ⟨asked, hasked, hsupply⟩ := hquiet.asks.stopped h
    exact ⟨asked, hasked.trans List.nil_prefix, hsupply⟩

end

mutual

theorem asks_receiver (e : Expr) : Asks e.blockSymbols (receiver env e) := by
  cases e with
  | literal kind text span => exact Quiet.asks fun _ => ⟨rfl, rfl⟩
  | pseudo word span => exact (drafts_pseudo env word span).quiet.asks
  | reference name span => exact (drafts_reference env name span).quiet.asks
  | block parameters body span =>
    exact (asks_block env _ _ _ _ (asks_sequence body fun _ => ⟨rfl, rfl⟩)).before fun _ => .pure _
  | send target m span =>
    exact (asks_inRegion env _ _ ((asks_receiver target).bind fun r => asks_message r m)).before
      fun _ => .pure _
  | cascade target messages span =>
    exact .check _ ((asks_receiver target).bind fun r =>
      (asks_cascade r messages).before fun _ => .pure _)
  | assign target value span =>
    exact (drafts_assignable target).quiet.then fun slot =>
      (asks_asValue env _ (asks_receiver value)).before fun _ _ => ⟨rfl, rfl⟩
  | paren inner span => exact (asks_asValue env _ (asks_receiver inner)).before fun _ => .pure _
  | primitive number span => exact (Quiet.throw _).asks

theorem asks_message (r : Receiver) (m : Message) : Asks m.blockSymbols (message env r m) := by
  cases m with
  | unary selector =>
    exact ((drafts_rejectEscape env r selector).bind fun _ =>
      drafts_dispatch env _ _ r _).quiet.asks
  | binary selector argument span =>
    exact (drafts_rejectEscape env r selector).quiet.then fun _ =>
      (asks_asValue env _ (asks_receiver argument)).before fun _ =>
        (drafts_dispatch env _ _ r _).quiet
  | keyword parts span =>
    by_cases hr : r = .escape
    · subst hr
      exact asks_directive env parts span
    · rw [message, keywordMessage, if_neg hr]
      exact (drafts_checkParts parts span).quiet.then fun _ =>
        (drafts_checkArity _ _ span).quiet.then fun _ =>
          asks_keyword env (asks_noted parts) span (drafts_dispatch env _ _ r span).quiet

theorem asks_cascade (r : Receiver) (messages : List Message) :
    Asks (messageSymbols messages) (cascade env r messages) := by
  cases messages with
  | nil => exact (Quiet.pure ()).asks
  | cons m rest =>
    have hm := asks_message r m
    have hrest := asks_cascade r rest
    rw [cascade]
    split_ifs
    · exact hm.bind fun _ => hrest
    · exact (Quiet.emit _).then fun _ => (asks_inRegion env _ _ hm).bind fun _ =>
        (Quiet.emit _).then fun _ => hrest
    · exact (asks_inRegion env _ _ hm).bind fun _ => hrest

theorem asks_noted (parts : List KeywordPart) : Asks (argumentSymbols parts) (noted env parts) := by
  cases parts with
  | nil => exact (Quiet.pure ()).asks
  | cons part rest =>
    have hrest := asks_arguments_of_noted env (asks_noted rest)
    obtain ⟨keyword, argument⟩ := part
    cases argument with
    | block parameters body span =>
      exact (asks_block env _ _ _ _ (asks_sequence body fun _ => ⟨rfl, rfl⟩)).bind fun _ => hrest
    | _ => exact (asks_asValue env _ (asks_receiver _)).bind fun _ => hrest

theorem asks_sequence (body : Sequence) {whenEmpty : Compile Unit} (h : Quiet whenEmpty) :
    Asks body.blockSymbols (sequence env whenEmpty body) := by
  obtain ⟨temporaries, ss, span⟩ := body
  refine (quiet_declareTemporaries env temporaries).then fun _ => ?_
  cases ss with
  | nil => exact ((Quiet.emit _).bind fun _ => h.bind fun _ => .emit _).asks
  | cons first others => exact (asks_statements (first :: others)).before fun _ => .emit _

theorem asks_statements (ss : List Statement) :
    Asks (statementSymbols ss) (statements env ss) := by
  cases ss with
  | nil => exact (Quiet.pure ()).asks
  | cons statement rest =>
    exact .check _ ((asks_statement rest.isEmpty statement).bind fun _ => asks_statements rest)

theorem asks_statement (isLast : Bool) (statement : Statement) :
    Asks statement.blockSymbols (Compile.statement env isLast statement) := by
  cases statement with
  | expression value =>
    exact asks_statementWith env _ _ (asks_asValue env _ (asks_receiver value))
  | answer value span =>
    exact asks_statementWith env _ _ ((Quiet.emit _).then fun _ =>
      (asks_asValue env _ (asks_receiver value)).before fun _ => .emit _)

end

theorem asks_script (script : Script) :
    Asks script.body.blockSymbols (Compile.script env script) := by
  have hsequence : Asks script.body.blockSymbols (sequence env pushReceiver script.body) :=
    asks_sequence env script.body fun _ => ⟨rfl, rfl⟩
  exact Quiet.then (a := pushScope) (fun _ => ⟨rfl, rfl⟩) fun _ => hsequence.before fun _ =>
    Quiet.bind (a := popScope) (fun _ => ⟨rfl, rfl⟩) fun _ =>
      Quiet.bind (a := get) (fun _ => ⟨rfl, rfl⟩) fun _ => (Quiet.ofExcept _).bind fun _ => .pure _

end Compile

section

variable {env : Env} {script : Script} {s : State}

/-- The searches for the names of a script's blocks try the numbers up to the next one. -/
theorem serves_initial {symbols : List (Option String)}
    (h : s.supply = (State.initial env).supply.afterNames symbols) :
    ∃ tried names, (State.initial env).supply.Serves symbols tried names s.supply ∧
      tried.filterMap Candidate.number? = List.range s.nextBlock := by
  obtain ⟨tried, names, hserves⟩ := (State.initial env).supply.serves_afterNames symbols
  rw [← h] at hserves
  refine ⟨tried, names, hserves, hserves.numbers.2.trans ?_⟩
  rw [List.range_eq_range']
  rfl

/-- The names that are found are those of the blocks. -/
theorem names_perm {method : Method}
    (h : Compile.script env script (State.initial env) = .ok method s)
    {symbols : List (Option String)} {tried : List Candidate} {names : List String}
    (hserves : (State.initial env).supply.Serves symbols tried names s.supply) :
    names.Perm (s.blocks.toList.map Method.name) := by
  obtain ⟨s₁, b, hsequence, -, rfl, -⟩ := script_ok env h
  have hgrows : script.body.Grows env [] [.load 1] _ s₁ :=
    sequence_grows env script.body (fun _ => rfl) hsequence
  obtain ⟨-, methods, files, hemits⟩ := hgrows {} [] rfl Scope.declares_empty
  -- neither list repeats a name, and both hold what is taken now and was not at the start
  obtain ⟨hnodup, hnew, htaken⟩ := hserves.names_new
  have hblocks : s₁.blocks.toList = methods := hemits.blocks
  change names.Perm (s₁.blocks.toList.map Method.name)
  rw [hblocks]
  refine (List.perm_ext_iff_of_nodup hnodup hemits.nodup).2 fun name => ?_
  have hboth : name ∈ (State.initial env).taken ∨ name ∈ names ↔
      name ∈ (State.initial env).taken ∨ name ∈ methods.map Method.name :=
    (htaken name).symm.trans (hemits.taken name)
  have hfree : name ∈ methods.map Method.name → name ∉ (State.initial env).taken := by
    rintro hmem
    obtain ⟨m, hm, rfl⟩ := List.mem_map.1 hmem
    exact hemits.fresh m hm
  have := hnew name
  tauto

end

/-- The search for a block's name ends, after one round for each taken name and one more at most,
with a name that was not taken: that of the symbol where it is legal and free, and otherwise the
first free number from the counter on, which is left behind it. Over a whole compilation, also one
that fails on the way, the numbers below the counter have been tried, each of them once, and the
names that were found are those of the blocks. -/
theorem compile_names_blocks :
    (∀ s : State, ∃ passed found,
      (Search.start s.nextBlock s.symbol?).Finds s.taken passed found ∧
      passed.length ≤ s.taken.size + 1 ∧
      nameBlock s = .ok found.candidate.name
        { s with taken := s.taken.insert found.candidate.name, nextBlock := found.next } ∧
      found.candidate.name ∉ s.taken ∧
      (∀ name, IsSymbolName s.symbol? name → name ∉ s.taken →
        found = ⟨.symbol name, s.nextBlock⟩) ∧
      ((∀ name, IsSymbolName s.symbol? name → name ∈ s.taken) →
        ∃ n, s.nextBlock ≤ n ∧ found = ⟨.number n, n + 1⟩)) ∧
    ∀ (env : Env) (script : Script),
      (∀ method s, Compile.script env script (State.initial env) = .ok method s →
        ∃ tried names,
          (State.initial env).supply.Serves (script.body.blockSymbols none) tried names s.supply ∧
          tried.filterMap Candidate.number? = List.range s.nextBlock ∧
          names.Perm (s.blocks.toList.map Method.name)) ∧
      ∀ e s, Compile.script env script (State.initial env) = .error e s →
        ∃ asked tried names, asked <+: script.body.blockSymbols none ∧
          (State.initial env).supply.Serves asked tried names s.supply ∧
          tried.filterMap Candidate.number? = List.range s.nextBlock := by
  refine ⟨fun s => ?_, fun env script => ⟨fun method s h => ?_, fun e s h => ?_⟩⟩
  · obtain ⟨passed, found, hfinds, hlength, hchoose⟩ := choose_finds s.taken s.nextBlock s.symbol?
    refine ⟨passed, found, hfinds, hlength, ?_, hfinds.notMem, hfinds.found_eq⟩
    rw [State.symbol?] at hchoose
    rw [nameBlock, hchoose]
  · obtain ⟨hsupply, -⟩ := (asks_script env script).granted h
    obtain ⟨tried, names, hserves, hnumbers⟩ := serves_initial hsupply
    exact ⟨tried, names, hserves, hnumbers, names_perm h hserves⟩
  · obtain ⟨asked, hasked, hsupply⟩ := (asks_script env script).stopped h
    obtain ⟨tried, names, hserves, hnumbers⟩ := serves_initial hsupply
    exact ⟨asked, tried, names, hasked, hserves, hnumbers⟩

/-- A symbol that gives a name, no symbol, a script of two blocks and one that does not compile. -/
theorem names_blocks_of_sample :
    (∃ s s' : State, s.symbol? = some "#x" ∧ nameBlock s = .ok "x" s') ∧
    (∃ n s, nameBlock (State.initial Sample.env) = .ok (numbered n) s) ∧
    (∃ method s tried names,
      Compile.script Sample.env Sample.script (State.initial Sample.env) = .ok method s ∧
      (State.initial Sample.env).supply.Serves [none, none] tried names s.supply ∧
      names.Perm (s.blocks.toList.map Method.name)) ∧
    ∃ script e s tried names,
      Compile.script Sample.env script (State.initial Sample.env) = .error e s ∧
      (State.initial Sample.env).supply.Serves [] tried names s.supply := by
  obtain ⟨hone, hall⟩ := compile_names_blocks
  refine ⟨?_, ?_, ?_, ?_⟩
  · obtain ⟨passed, found, -, -, hname, -, hsymbol, -⟩ :=
      hone { State.initial Sample.env with pending := [⟨"", some "#x", {}⟩] }
    have hfree : "x" ∉ (State.initial Sample.env).taken := fun h =>
      absurd (Std.HashSet.mem_ofList.1 h) (by decide)
    rw [hsymbol "x" ⟨"#x", rfl, ⟨1, by decide⟩, by decide, by decide, by simp⟩ hfree] at hname
    exact ⟨_, _, rfl, hname⟩
  · obtain ⟨passed, found, -, -, hname, -, -, hnumber⟩ := hone (State.initial Sample.env)
    obtain ⟨n, -, rfl⟩ := hnumber (by rintro name ⟨text, ⟨⟩, -⟩)
    exact ⟨n, _, hname⟩
  · obtain ⟨g, hg⟩ := Sample.generates
    cases h : Compile.script Sample.env Sample.script (State.initial Sample.env) with
    | ok method s =>
      obtain ⟨tried, names, hserves, -, hperm⟩ := (hall Sample.env Sample.script).1 method s h
      exact ⟨method, s, tried, names, rfl, hserves, hperm⟩
    | error e s => simp [generate, h] at hg
  · obtain ⟨asked, tried, names, hasked, hserves, -⟩ :=
      (hall Sample.env ⟨⟨[], [.expression (.primitive "1" {})], {}⟩, {}⟩).2 _ _ rfl
    obtain rfl := List.prefix_nil.1 hasked
    exact ⟨⟨⟨[], [.expression (.primitive "1" {})], {}⟩, {}⟩, _, _, tried, names, rfl, hserves⟩

end SmalltalkJvm
