import SmalltalkJvm.Proofs.Simulation

/-! # Regions on the machine

An exception that is thrown inside a region goes to the handler of the first marker that it belongs
to, and the handler answers with what it carries. Any other exception leaves the region as it came.
With this, the machine follows structured code from end to end.
-/

namespace SmalltalkJvm

open Draft

section

variable {V W : Type} (env : Env) (rt : Runtime V W) (locals : List V) {b : MethodBody}

theorem reaches_mark {d : Draft} (hb : d.Within b) {prior rest : List Instruction} {label : Label}
    (hd : d.code.toList = prior ++ .mark label :: rest) (stack : List V) (world : W) :
    b.Reaches rt locals (.running prior.length stack world)
      (.running (prior.length + 1) stack world) :=
  reaches_ok rt locals (hb.getElem? hd) rfl rfl

theorem openRegion_reaches {d : Draft} (hb : d.openRegion.Within b) (stack : List V) (world : W) :
    b.Reaches rt locals (.running d.code.size stack world)
      (.running d.openRegion.code.size stack world) := by
  have hcode : d.openRegion.code.toList = d.code.toList ++ .mark d.nextLabel :: [] := by
    simp [openRegion_eq]
  have hsize : d.openRegion.code.size = d.code.size + 1 := by simp [openRegion_eq]
  rw [hsize]
  exact reaches_mark rt locals hb hcode stack world

section

variable {start : Label} {span : Span} {markers : List String} {d d' : Draft}

/-- Control that reaches the end of a region goes around its handlers. -/
theorem Draft.Closes.reaches (h : Closes env start span markers d d') (hw : d.WellMarked)
    (hr : d.reachable = true) (hb : d'.Within b) (stack : List V) (world : W) :
    b.Reaches rt locals (.running d.code.size stack world) (.running d'.code.size stack world) := by
  have hstop := h.code
  simp only [hr, ↓reduceIte, List.cons_append, List.nil_append] at hstop
  have hgoto := hstop
  rw [List.append_cons] at hgoto
  obtain ⟨prior, hafter, hnew⟩ := h.split_after env hw
  have hsize : d'.code.size = b.place ⟨d.labels.size + 1⟩ + 1 := by
    rw [hb.place_eq hafter hnew, ← Array.length_toList, hafter]
    simp
  have hlast := reaches_mark rt locals hb hafter stack world
  rw [← hb.place_eq hafter hnew, ← hsize] at hlast
  have hjump := reaches_goto rt locals (hb.getElem? hgoto) stack world
  rw [List.length_append, List.length_singleton] at hjump
  exact ((reaches_mark rt locals hb hstop stack world).trans hjump).trans hlast

theorem find?_handlerLabels (p : String → Bool) (first : Nat) {markers : List String}
    {marker : String} (h : markers.find? p = some marker) :
    ∃ label, (handlerLabels first markers).find? (fun x => p x.2) = some (label, marker) := by
  induction markers generalizing first with
  | nil => cases h
  | cons m markers ih =>
    cases hm : p m with
    | true =>
      rw [List.find?_cons_of_pos hm] at h
      cases h
      exact ⟨_, List.find?_cons_of_pos hm⟩
    | false =>
      rw [List.find?_cons_of_neg (by simp [hm])] at h
      obtain ⟨label, hl⟩ := ih (first + 1) h
      exact ⟨label, by rw [handlerLabels, List.find?_cons_of_neg (by simp [hm]), hl]⟩

theorem find?_none_handlerLabels {p : String → Bool} {first : Nat} {markers : List String}
    (h : markers.find? p = none) {x : Label × String} (hx : x ∈ handlerLabels first markers) :
    p x.2 = false := by
  induction markers generalizing first with
  | nil => cases hx
  | cons m markers ih =>
    rw [List.find?_eq_none] at h
    rcases List.mem_cons.1 hx with rfl | hx
    · simpa using h m (by simp)
    · exact ih (List.find?_eq_none.2 fun y hy => h y (by simp [hy])) hx

/-- The call for the answer of an exception, and what follows it. -/
theorem reaches_answerCall {d : Draft} (hb : d.Within b) {marker : String}
    {prior rest : List Instruction}
    (hd : d.code.toList = prior ++ .invoke .invokevirtual (answerMethod env marker) ::
      .plain .areturn :: rest)
    (hm : AnswersOne env marker) (exception : V) (world : W) :
    match rt.call .invokevirtual (answerMethod env marker) [exception] world with
    | .ok value world' =>
      b.Reaches rt locals (.running prior.length [exception] world) (.returned value world')
    | .error other world' =>
      b.Reaches rt locals (.running prior.length [exception] world)
        (.throwing prior.length other world') := by
  obtain ⟨type, htype⟩ := hm
  have hexec : (Instruction.invoke .invokevirtual (answerMethod env marker)).exec rt locals
      [exception] =
      some ((fun v => [v]) <$> rt.call .invokevirtual (answerMethod env marker) [exception]) := by
    simp [Instruction.exec, htype, Except.toOption, callWith]
  have hreturn := hd
  rw [List.append_cons] at hreturn
  have hareturn := hb.getElem? hreturn
  rw [List.length_append, List.length_singleton] at hareturn
  split
  · rename_i value world' hcall
    have hok : ((fun v => [v]) <$> rt.call .invokevirtual (answerMethod env marker) [exception])
        world = .ok [value] world' := by
      change EStateM.map _ _ _ = _
      rw [EStateM.map, hcall]
    exact (reaches_ok rt locals (hb.getElem? hd) hexec hok).trans
      (reaches_areturn rt locals hareturn value [] world')
  · rename_i other world' hcall
    have hx : ((fun v => [v]) <$> rt.call .invokevirtual (answerMethod env marker) [exception])
        world = .error other world' := by
      change EStateM.map _ _ _ = _
      rw [EStateM.map, hcall]
    exact reaches_error rt locals (hb.getElem? hd) hexec hx

/-- The handler of a marker answers with what the exception carries. -/
theorem reaches_answer {d : Draft} (hb : d.Within b) {lines : Bool} {span : Span}
    {x : Label × String} {prior rest : List Instruction}
    (hd : d.code.toList = prior ++ (handlerCode env lines span x ++ rest))
    (hx : AnswersOne env x.2) (exception : V) (world : W) :
    ∃ place, prior.length ≤ place ∧ place < d.code.size ∧
      match rt.call .invokevirtual (answerMethod env x.2) [exception] world with
      | .ok value world' =>
        b.Reaches rt locals (.running prior.length [exception] world) (.returned value world')
      | .error other world' =>
        b.Reaches rt locals (.running prior.length [exception] world)
          (.throwing place other world') := by
  obtain ⟨lined, hlined, hreach⟩ : ∃ lined, d.code.toList = (prior ++ lined) ++
      .invoke .invokevirtual (answerMethod env x.2) :: .plain .areturn :: rest ∧
      b.Reaches rt locals (.running prior.length [exception] world)
        (.running (prior ++ lined).length [exception] world) := by
    cases lines with
    | false =>
      refine ⟨[.mark x.1], by simpa [handlerCode] using hd, ?_⟩
      rw [List.length_append, List.length_singleton]
      exact reaches_mark rt locals hb (by simpa [handlerCode] using hd) _ _
    | true =>
      refine ⟨[.mark x.1, .line span.line], by simpa [handlerCode] using hd, ?_⟩
      have hline : d.code.toList = (prior ++ [.mark x.1]) ++ .line span.line ::
          .invoke .invokevirtual (answerMethod env x.2) :: .plain .areturn :: rest := by
        simpa [handlerCode] using hd
      have hsecond : b.Reaches rt locals
          (.running (prior ++ [Instruction.mark x.1]).length [exception] world)
          (.running ((prior ++ [Instruction.mark x.1]).length + 1) [exception] world) :=
        reaches_ok rt locals (hb.getElem? hline) rfl rfl
      rw [List.length_append, List.length_singleton] at hsecond
      rw [List.length_append]
      exact (reaches_mark rt locals hb (by simpa [handlerCode] using hd) _ _).trans hsecond
  have hcall := reaches_answerCall env rt locals hb hlined hx exception world
  refine ⟨(prior ++ lined).length, by simp, ?_, ?_⟩
  · rw [← Array.length_toList, hlined]
    simp
  · split at hcall
    · exact hreach.trans hcall
    · exact hreach.trans hcall

theorem Draft.Closes.place_stop (h : Closes env start span markers d d') (hw : d.WellMarked)
    (hb : d'.Within b) : b.place ⟨d.labels.size⟩ = d.code.size := by
  rw [hb.place_eq h.code, Array.length_toList]
  intro hl
  have := hw.below _ hl
  simp only at this
  omega

/-- An exception that nothing inside a region catches goes to the first of its handlers that
does. -/
theorem Draft.Closes.handler?_eq (h : Closes env start span markers d d') (hw : d.WellMarked)
    (hb : d'.Within b) {place : Nat} (hstart : b.place start ≤ place) (hlt : place < d.code.size)
    {exception : V} (hnone : ∀ e ∈ d.handlers.toList,
      (b.covers e place && e.catches.all (rt.isInstance · exception)) = false)
    {marker : String} (hm : markers.find? (rt.isInstance · exception) = some marker) :
    ∃ x ∈ handlerLabels (d.labels.size + 2) markers, x.2 = marker ∧
      b.handler? rt place exception = some ⟨start, ⟨d.labels.size⟩, x.1, some x.2⟩ := by
  obtain ⟨label, hlabel⟩ :=
    find?_handlerLabels (rt.isInstance · exception) (d.labels.size + 2) hm
  refine ⟨(label, marker), List.mem_of_find?_eq_some hlabel, rfl, ?_⟩
  obtain ⟨more, hmore⟩ := hb.handlers
  have hold : (d.handlers.toList.find? fun e =>
      b.covers e place && e.catches.all (rt.isInstance · exception)) = none := by
    rw [List.find?_eq_none]
    intro e he
    rw [hnone e he]
    decide
  have hcovers (x : Label × String) :
      b.covers ⟨start, ⟨d.labels.size⟩, x.1, some x.2⟩ place = true := by
    simp only [MethodBody.covers, h.place_stop env hw hb, Bool.and_eq_true, decide_eq_true_eq]
    exact ⟨hstart, hlt⟩
  rw [MethodBody.handler?, ← hmore, h.entries, List.append_assoc, List.find?_append, hold,
    Option.none_or, List.find?_append, regionEntries, List.find?_map]
  simp only [Function.comp_def, hcovers, Bool.true_and, Option.all_some, hlabel, Option.map_some,
    Option.some_or]

/-- Nothing catches what is thrown behind the range of a region. -/
theorem Draft.Closes.not_covers (h : Closes env start span markers d d') (hw : d.WellMarked)
    (hb : d'.Within b) {place : Nat} (hp : d.code.size ≤ place) {e : ExceptionEntry}
    (he : e ∈ d'.handlers.toList) : b.covers e place = false := by
  rw [h.entries, List.mem_append, regionEntries, List.mem_map] at he
  rcases he with he | ⟨x, -, rfl⟩
  · exact not_covers_of_le hw (hb.of_extends (h.extends env)) he hp
  · simp only [MethodBody.covers, h.place_stop env hw hb, Bool.and_eq_false_iff,
      decide_eq_false_iff_not]
    omega

/-- A region catches what its markers say. -/
theorem Draft.Closes.simulates {opened : Draft} {eval : List V → Eval V W (List V)}
    (h : Closes env start span markers d d') (hbody : Simulates rt locals b opened d eval)
    (hw : d.WellMarked) (hb : d'.Within b) (hstart : b.place start ≤ opened.code.size) :
    Simulates rt locals b opened d' fun stack => catchAnswers env rt markers (eval stack) := by
  intro hr stack world hs
  have hfollows := hbody hr stack world hs
  have hsize := (h.extends env).code.length_le
  simp only [Array.length_toList] at hsize
  dsimp only [catchAnswers]
  match hx : eval stack world with
  | .ok after world' =>
    rw [hx] at hfollows
    obtain ⟨hr', hs', hreach⟩ := hfollows
    refine ⟨h.reachable.trans hr', ?_, hreach.trans (h.reaches env rt locals hw hr' hb _ _)⟩
    rw [hs']
    exact congrArg (fun f => f.stack.length) (h.flow hr').symm
  | .error (.answered value) world' =>
    rw [hx] at hfollows
    exact hfollows
  | .error (.thrown exception) world' =>
    rw [hx] at hfollows
    obtain ⟨place, hge, hlt, hthrow, hnone⟩ := hfollows
    dsimp only
    cases hm : markers.find? (rt.isInstance · exception) with
    | none =>
      refine ⟨place, hge, by omega, hthrow, fun e he => ?_⟩
      rw [h.entries, List.mem_append, regionEntries, List.mem_map] at he
      rcases he with he | ⟨x, hx, rfl⟩
      · exact hnone e he
      · rw [Option.all_some, find?_none_handlerLabels hm hx, Bool.and_false]
    | some marker =>
      obtain ⟨x, hx, rfl, hhandler⟩ :=
        h.handler?_eq env rt hw hb (Nat.le_trans hstart hge) hlt hnone hm
      obtain ⟨prior, rest, hcode, hnew, hprior⟩ := h.split_handler env hw hx
      obtain ⟨behind, hge', hlt', hanswer⟩ :=
        reaches_answer env rt locals hb hcode (h.answers x hx) exception world'
      have hcaught : b.Reaches rt locals (.throwing place exception world')
          (.running prior.length [exception] world') := by
        have hmark : d'.code.toList = prior ++ .mark x.1 ::
          ((handlerCode env d.recordsLines span x).tail ++ rest) := hcode
        refine .single ?_
        rw [MethodBody.step, hhandler, ← hb.place_eq hmark hnew]
      have hreach := hthrow.trans hcaught
      change Follows rt locals b opened d' stack world (EStateM.bind (ofCall _) _ world')
      simp only [EStateM.bind, ofCall]
      split at hanswer
      · rename_i value world'' hcall
        rw [hcall]
        exact hreach.trans hanswer
      · rename_i other world'' hcall
        rw [hcall]
        refine ⟨behind, by omega, hlt', hreach.trans hanswer, fun e he => ?_⟩
        rw [h.not_covers env hw hb (by omega) he, Bool.false_and]

end

theorem catchAnswers_nil {α : Type} (body : Eval V W α) : catchAnswers env rt [] body = body := by
  funext world
  unfold catchAnswers
  split
  · rename_i h
    exact h.symm
  · rfl

namespace Code

theorem narrow_settling (hnil : ∀ op ∈ nilOperations env, op.Narrow) (isLast : Bool)
    (base depth : Nat) : ∀ op ∈ settling env isLast base depth, op.Narrow := by
  intro op hop
  unfold settling at hop
  split_ifs at hop
  · exact hnil op hop
  · cases hop
  · rw [List.eq_of_mem_replicate hop]
    trivial

theorem narrow_run (hnil : ∀ op ∈ nilOperations env, op.Narrow) {c : Code} {d : Draft}
    (hd : d.Narrow) (hc : c.All Operation.Narrow) (hf : (c.run env d).fault = none) :
    (c.run env d).Narrow := by
  induction c generalizing d with
  | operations ops => exact hd.runOperations hc hf
  | append first second ihFirst ihSecond =>
    exact ihSecond (ihFirst hd hc.1 (fault_run env hf)) hc.2 hf
  | marker name => exact hd
  | region span body ih =>
    exact (ih hd.openRegion hc (fault_closeRegion env hf)).closeRegion hf
  | statement isLast body ih =>
    exact (ih hd hc (Draft.fault_run hf)).runOperations (narrow_settling env hnil _ _ _) hf

/-- The machine follows structured code. -/
theorem simulates (hnil : ∀ op ∈ nilOperations env, op.Narrow) {c : Code} {d : Draft}
    (hd : d.Ready locals) (hc : c.All Operation.Narrow) (hf : (c.run env d).fault = none)
    (hb : (c.run env d).Within b) :
    Simulates rt locals b d (c.run env d) (c.eval env rt locals) := by
  induction c generalizing d with
  | operations ops => exact evalOperations_simulates rt locals hd hf hc hb
  | append first second ihFirst ihSecond =>
    have hf₁ : (first.run env d).fault = none := fault_run env hf
    have hfirst := run_builds env hf₁
    have hsecond : (first.run env d).Builds (second.run env (first.run env d)) := run_builds env hf
    have hd₁ := hd.of_builds locals hfirst (narrow_run env hnil hd.narrow hc.1 hf₁)
    exact Simulates.bind rt locals (ihFirst hd hc.1 hf₁ (hb.of_extends hsecond.toExtends))
      (ihSecond hd₁ hc.2 hf hb) hfirst.toExtends hsecond hd₁.wellMarked hb
  | marker name => exact Simulates.pure rt locals d
  | region span body ih =>
    have hf₁ : (body.run env d.openRegion).fault = none := fault_closeRegion env hf
    have hopen := openRegion_builds d
    have hd₁ := hd.of_builds locals hopen hd.narrow.openRegion
    have hbody := run_builds env hf₁
    have hw := hbody.wellMarked hd₁.wellMarked
    intro hr stack world hs
    have hr₁ : d.openRegion.reachable = true := by rwa [openRegion_eq]
    have hs₁ : stack.length = d.openRegion.stack.entries.length := by rwa [openRegion_eq]
    have hreach (hb : (body.run env d.openRegion).Within b) :=
      openRegion_reaches rt locals (hb.of_extends hbody.toExtends) stack world
    by_cases hm : body.markers = []
    · have hclosed : (region span body).run env d = body.run env d.openRegion := by
        simp [run, closeRegion, hm]
      rw [hclosed] at hb ⊢
      have hfollows := ih hd₁ hc hf₁ hb hr₁ stack world hs₁
      simp only [eval, hm, catchAnswers_nil]
      exact hfollows.after rt locals hopen.toExtends (hreach hb)
    · have hclose := closeRegion_closes env d.nextLabel span hm hf
      have hb₁ := hb.of_extends (hclose.extends env)
      have hstart : b.place d.nextLabel ≤ d.openRegion.code.size := by
        refine Nat.le_of_lt ((hb₁.of_extends hbody.toExtends).place_lt ?_)
        simp [openRegion_eq]
      have hfollows := hclose.simulates env rt locals (ih hd₁ hc hf₁ hb₁) hw hb hstart
      exact (hfollows hr₁ stack world hs₁).after rt locals hopen.toExtends (hreach hb₁)
  | statement isLast body ih =>
    have hf₁ : (body.run env d).fault = none := Draft.fault_run hf
    have hbody := run_builds env hf₁
    have hsettle := runOperations_builds hf
    have hd₁ := hd.of_builds locals hbody (narrow_run env hnil hd.narrow hc hf₁)
    have hrest : Simulates rt locals b (body.run env d) ((statement isLast body).run env d)
        fun after =>
          evalOperations rt locals (settling env isLast d.stack.depth after.length) after := by
      intro hr after world hs
      change Follows rt locals b _ _ after world
        (evalOperations rt locals (settling env isLast d.stack.depth after.length) after world)
      rw [hs, ← (body.run env d).stack.depth_eq]
      exact evalOperations_simulates rt locals hd₁ hf (narrow_settling env hnil _ _ _) hb hr after
        world hs
    intro hr stack world hs
    have hboth := Simulates.bind rt locals (ih hd hc hf₁ (hb.of_extends hsettle.toExtends)) hrest
      hbody.toExtends hsettle hd₁.wellMarked hb hr stack world hs
    change Follows rt locals b _ _ stack world
      ((body.eval env rt locals stack >>= fun after =>
        evalOperations rt locals (settling env isLast stack.length after.length) after) world)
    rw [hs, ← d.stack.depth_eq]
    exact hboth

/-- A finished body computes what its code evaluates to, if the code answers at its end. -/
theorem computes (hnil : ∀ op ∈ nilOperations env, op.Narrow) {c : Code}
    {types : List VerificationType} {lines : Bool} (ht : ∀ t ∈ types, t.isWide = false)
    (hlocals : locals.length = types.length) (hc : c.All Operation.Narrow)
    (hfinish : (c.run env (method types lines)).finish = .ok b) {value : Eval V W V}
    (heval : c.eval env rt locals [] = (do throw (.answered (← value)))) :
    b.Computes rt locals (returning value) := by
  have hfinishes := finishes_of_finish hfinish
  have hready : (method types lines).Ready locals :=
    ⟨wellMarked_method types lines, fun _ t ht' => ht t (by simpa [method, flow] using ht'),
      hlocals⟩
  have hb : (c.run env (method types lines)).Within b :=
    ⟨by simp [hfinishes.instructions], by simp [hfinishes.handlers]⟩
  intro world
  have hfollows := c.simulates env rt locals hnil hready hc hfinishes.fault hb rfl [] world rfl
  rw [heval] at hfollows
  change Follows rt locals b _ _ [] world (EStateM.bind value (fun v => throw (.answered v)) world)
    at hfollows
  rw [EStateM.bind] at hfollows
  dsimp only [returning]
  cases hvalue : value world with
  | ok v world' =>
    rw [hvalue] at hfollows
    exact hfollows
  | error e world' =>
    rw [hvalue] at hfollows
    cases e with
    | answered v => exact hfollows
    | thrown exception =>
      obtain ⟨place, -, -, hthrow, hnone⟩ := hfollows
      have hhandler : b.handler? rt place exception = none := by
        rw [MethodBody.handler?, hfinishes.handlers, List.find?_eq_none]
        intro e he
        rw [hnone e he]
        decide
      exact hthrow.trans (.single (by rw [MethodBody.step, hhandler]))

end Code

end

end SmalltalkJvm
