import Mathlib.Data.List.Forall2
import SmalltalkJvm.Proofs.Calls

/-! # The exception entries of structured code

For every marker that is attached to a region, the end of the region adds one exception entry. Its
range is the code of the region and nothing else, and its handler returns what the marker carries.
-/

namespace SmalltalkJvm

open Compile

variable (env : Env)

namespace Code

/-- The markers that code catches, each with the code of its region, in the order in which the
regions are closed. -/
def guards : Code → List (String × Code)
  | operations _ | marker _ => []
  | append first second => first.guards ++ second.guards
  | region _ body => body.guards ++ body.markers.map fun marker => (marker, body)
  | statement _ body => body.guards

def Emitted (c : Code) (added : List Instruction) : Prop :=
  ∃ d : Draft, d.reachable = true ∧ (c.run env d).fault = none ∧
    (c.run env d).code.toList = d.code.toList ++ added

end Code

/-- An exception entry that catches a marker: its range is what the code given emits, and its
handler asks the exception for the answer and returns it. -/
structure ExceptionEntry.Guards (e : ExceptionEntry) (instructions : List Instruction)
    (marker : String) (body : Code) : Prop where
  catches : e.catches = some marker
  range : ∃ before inner after,
    instructions = before ++ .mark e.start :: (inner ++ .mark e.stop :: after) ∧
      body.Emitted env inner
  handler : ∃ before lines after,
    instructions = before ++ .mark e.handler ::
        (lines ++ .invoke .invokevirtual (Draft.answerMethod env marker) ::
          .plain .areturn :: after) ∧
      ∀ i ∈ lines, ∃ number, i = .line number

namespace ExceptionEntry

variable {env}

theorem Guards.mono {e : ExceptionEntry} {instructions instructions' : List Instruction}
    {marker : String} {body : Code} (h : e.Guards env instructions marker body)
    (hmore : instructions <+: instructions') : e.Guards env instructions' marker body := by
  obtain ⟨more, rfl⟩ := hmore
  obtain ⟨before, inner, after, hrange, hemitted⟩ := h.range
  obtain ⟨before', lines, after', hhandler, hlines⟩ := h.handler
  refine ⟨h.catches, ⟨before, inner, after ++ more, ?_, hemitted⟩,
    ⟨before', lines, after' ++ more, ?_, hlines⟩⟩
  · rw [hrange]
    simp
  · rw [hhandler]
    simp

end ExceptionEntry

namespace Draft

/-- A draft goes on by code that catches some markers: each has an entry of its own, and there are
no others. -/
def Wires (d d' : Draft) (guards : List (String × Code)) : Prop :=
  ∃ entries, d'.handlers.toList = d.handlers.toList ++ entries ∧
    List.Forall₂ (fun e x => e.Guards env d'.code.toList x.1 x.2) entries guards

variable {env}

theorem Wires.nil {d d' : Draft} (h : d'.handlers = d.handlers) : Wires env d d' [] :=
  ⟨[], by simp [h], .nil⟩

theorem Wires.trans {d d₁ d' : Draft} {first second : List (String × Code)}
    (h₁ : Wires env d d₁ first) (h₂ : Wires env d₁ d' second)
    (hcode : d₁.code.toList <+: d'.code.toList) : Wires env d d' (first ++ second) := by
  obtain ⟨entries₁, hentries₁, hall₁⟩ := h₁
  obtain ⟨entries₂, hentries₂, hall₂⟩ := h₂
  refine ⟨entries₁ ++ entries₂, ?_, List.rel_append (hall₁.imp fun e x hguards => ?_) hall₂⟩
  · rw [hentries₂, hentries₁, List.append_assoc]
  · exact hguards.mono hcode

theorem runOperations_wires {d : Draft} {operations : List Operation}
    (hf : (d.runOperations operations).fault = none) :
    Wires env d (d.runOperations operations) [] :=
  .nil (handlers_runOperations hf)

theorem snd_handlerLabels (first : Nat) (markers : List String) :
    (handlerLabels first markers).map Prod.snd = markers := by
  induction markers generalizing first with
  | nil => rfl
  | cons marker markers ih => simp [handlerLabels, ih]

theorem map_eq_handlerLabels {α : Type} (f : String → α) (first : Nat) (markers : List String) :
    markers.map f = (handlerLabels first markers).map fun x => f x.2 := by
  nth_rewrite 1 [← snd_handlerLabels first markers]
  rw [List.map_map]
  rfl

/-- The end of a region holds the code of each of its handlers. -/
theorem Closes.exists_handler {start : Label} {span : Span} {markers : List String} {d d' : Draft}
    (h : Closes env start span markers d d') {x : Label × String}
    (hx : x ∈ handlerLabels (d.labels.size + 2) markers) :
    ∃ before after,
      d'.code.toList = before ++ (handlerCode env d.recordsLines span x ++ after) := by
  obtain ⟨others, rest, hsplit⟩ := List.append_of_mem hx
  refine ⟨d.code.toList ++ .mark ⟨d.labels.size⟩ ::
    ((if d.reachable then [.jump .goto ⟨d.labels.size + 1⟩] else []) ++
      others.flatMap (handlerCode env d.recordsLines span)),
    rest.flatMap (handlerCode env d.recordsLines span) ++ [.mark ⟨d.labels.size + 1⟩], ?_⟩
  rw [h.code, hsplit]
  simp

/-- The end of a region adds the entries of its markers. -/
theorem Closes.wires {d d₁ d' : Draft} {span : Span} {markers : List String} {body : Code}
    {inner : List Instruction} (h : Closes env d.nextLabel span markers d₁ d')
    (hbody : d₁.code.toList = d.openRegion.code.toList ++ inner)
    (hemitted : body.Emitted env inner) :
    Wires env d₁ d' (markers.map fun marker => (marker, body)) := by
  refine ⟨_, h.entries, ?_⟩
  rw [map_eq_handlerLabels _ (d₁.labels.size + 2), regionEntries, List.forall₂_map_left_iff,
    List.forall₂_map_right_iff, List.forall₂_same]
  intro x hx
  refine ⟨rfl, ?_, ?_⟩
  · obtain ⟨tail, htail⟩ : ∃ tail, d'.code.toList =
        d₁.code.toList ++ .mark ⟨d₁.labels.size⟩ :: tail := ⟨_, h.code⟩
    refine ⟨d.code.toList, inner, tail, ?_, hemitted⟩
    rw [htail, hbody, openRegion_eq]
    simp
  · obtain ⟨before, after, hcode⟩ := h.exists_handler hx
    refine ⟨before, if d₁.recordsLines then [.line span.line] else [], after, ?_, ?_⟩
    · rw [hcode]
      simp [handlerCode]
    · intro i hi
      split_ifs at hi
      · exact ⟨span.line, List.mem_singleton.1 hi⟩
      · cases hi

end Draft

namespace Code

open Draft

variable {env}

theorem emitted_of_run {c : Code} {d : Draft} (hr : d.reachable = true)
    (hf : (c.run env d).fault = none) :
    ∃ added, (c.run env d).code.toList = d.code.toList ++ added ∧ c.Emitted env added := by
  obtain ⟨added, hadded⟩ := (run_builds env hf).code
  exact ⟨added, hadded.symm, d, hr, hf, hadded.symm⟩

/-- A region whose body is entered with control. -/
theorem region_wires {span : Span} {body : Code} {d : Draft} (hr : d.reachable = true)
    (hf : ((region span body).run env d).fault = none)
    (hbody : Wires env d.openRegion (body.run env d.openRegion) body.guards) :
    Wires env d ((region span body).run env d) (region span body).guards := by
  have hopened : Wires env d d.openRegion [] := Wires.nil (by rw [openRegion_eq])
  have hfine := fault_closeRegion env hf
  have hinner := hopened.trans hbody (run_builds env hfine).code
  rw [List.nil_append] at hinner
  by_cases hm : body.markers = []
  · simp only [run, Draft.closeRegion, guards, hm, ↓reduceIte, List.map_nil, List.append_nil]
    exact hinner
  · have hclose := closeRegion_closes env d.nextLabel span hm hf
    obtain ⟨added, hadded, hemitted⟩ := emitted_of_run (by rwa [openRegion_eq]) hfine
    exact hinner.trans (hclose.wires hadded hemitted) hclose.extends.code

/-- Code that control runs through. -/
theorem run_wires {c : Code} {d : Draft} (hc : c.All (· ≠ .areturn)) (hr : d.reachable = true)
    (hf : (c.run env d).fault = none) : Wires env d (c.run env d) c.guards := by
  induction c generalizing d with
  | operations ops => exact runOperations_wires hf
  | append first second ihFirst ihSecond =>
    have hfirst : (first.run env d).fault = none := fault_run env hf
    have hreach := (readable_of_run env hc.1 hr hfirst).2
    exact (ihFirst hc.1 hr hfirst).trans (ihSecond hc.2 hreach hf)
      (run_builds (c := second) (d := first.run env d) env hf).code
  | marker name => exact Wires.nil rfl
  | region span body ih =>
    exact region_wires hr hf (ih hc (by rwa [openRegion_eq]) (fault_closeRegion env hf))
  | statement isLast body ih =>
    have hsettled : Wires env (body.run env d) _ [] := runOperations_wires hf
    have hwires := (ih hc hr (Draft.fault_run hf)).trans hsettled (runOperations_builds hf).code
    rwa [List.append_nil] at hwires

end Code

/-- Whether an operation emits its instruction wherever control comes to it, and control goes on. -/
def Operation.isPlain : Operation → Bool
  | line _ | discard | areturn => false
  | _ => true

namespace Draft

theorem step_isPlain {d : Draft} {op : Operation} (hop : op.isPlain = true)
    (hr : d.reachable = true) (hf : (d.step op.step).fault = none) :
    (d.step op.step).code.toList = d.code.toList ++ [op.instruction] ∧
      (d.step op.step).reachable = true := by
  have hreturn : op ≠ .areturn := by
    rintro rfl
    cases hop
  refine ⟨?_, (Operation.readable_of_step hr hf).2 hreturn⟩
  rcases step_operation hr op hf with ⟨-, number, rfl⟩ | h | ⟨rfl, -⟩
  · cases hop
  · rw [h.code, Array.toList_push]
  · cases hop

theorem runOperations_isPlain {d : Draft} {operations : List Operation}
    (ho : ∀ op ∈ operations, op.isPlain = true) (hr : d.reachable = true)
    (hf : (d.runOperations operations).fault = none) :
    (d.runOperations operations).code.toList =
      d.code.toList ++ operations.map Operation.instruction := by
  induction operations generalizing d with
  | nil => simp [runOperations]
  | cons op operations ih =>
    obtain ⟨hop, hrest⟩ := List.forall_mem_cons.1 ho
    obtain ⟨hcode, hreach⟩ := step_isPlain hop hr (Draft.fault_run hf)
    have hrun := ih hrest hreach hf
    rw [hcode, List.append_assoc, List.singleton_append] at hrun
    exact hrun

/-- A line may be opened before the instructions. -/
theorem runOperations_line {d : Draft} {number : Nat} {operations : List Operation}
    (ho : ∀ op ∈ operations, op.isPlain = true) (hr : d.reachable = true)
    (hf : (d.runOperations (.line number :: operations)).fault = none) :
    ∃ before, (d.runOperations (.line number :: operations)).code.toList =
      d.code.toList ++ (before ++ operations.map Operation.instruction) := by
  have hline : (d.step (Operation.line number).step).reachable = true :=
    (Operation.readable_of_step hr (Draft.fault_run hf)).2 (by simp)
  have hrest := runOperations_isPlain ho hline hf
  change ∃ before, ((d.step (Operation.line number).step).runOperations operations).code.toList = _
  rcases line_performs hr number with h | h
  · rw [show d.step (Operation.line number).step = d from h] at hrest ⊢
    exact ⟨[], hrest⟩
  · refine ⟨[.line number], ?_⟩
    rw [show (d.step (Operation.line number).step).code = d.code.push (.line number) from h.code,
      Array.toList_push, List.append_assoc] at hrest
    exact hrest

end Draft

namespace Code

open Draft

def Has (ops : List Operation) : Code → Prop
  | operations leaf => leaf = ops
  | append first second => first.Has ops ∨ second.Has ops
  | marker _ => False
  | region _ body | statement _ body => body.Has ops

def Ends (ops : List Operation) : Code → Prop
  | operations leaf => leaf = ops
  | append _ second => second.Ends ops
  | _ => False

variable {env} {number : Nat} {ops : List Operation}

theorem run_has {c : Code} {d : Draft} (hc : c.All (· ≠ .areturn)) (hr : d.reachable = true)
    (hf : (c.run env d).fault = none) (ho : ∀ op ∈ ops, op.isPlain = true)
    (h : c.Has (.line number :: ops)) :
    ∃ before after, (c.run env d).code.toList =
      d.code.toList ++ (before ++ ops.map Operation.instruction ++ after) := by
  induction c generalizing d with
  | operations leaf =>
    obtain rfl : leaf = .line number :: ops := h
    obtain ⟨before, hcode⟩ := runOperations_line ho hr hf
    exact ⟨before, [], by rw [List.append_nil]; exact hcode⟩
  | append first second ihFirst ihSecond =>
    have hfirst : (first.run env d).fault = none := fault_run env hf
    have hreach := (readable_of_run env hc.1 hr hfirst).2
    rcases h with h | h
    · obtain ⟨before, after, hcode⟩ := ihFirst hc.1 hr hfirst h
      obtain ⟨more, hmore⟩ := (run_builds (c := second) (d := first.run env d) env hf).code
      exact ⟨before, after ++ more, by rw [run, ← hmore, hcode]; simp⟩
    · obtain ⟨more, hmore⟩ := (run_builds env hfirst).code
      obtain ⟨before, after, hcode⟩ := ihSecond hc.2 hreach hf h
      exact ⟨more ++ before, after, by rw [run, hcode, ← hmore]; simp⟩
  | marker name => cases h
  | region span body ih =>
    have hbody := fault_closeRegion env hf
    obtain ⟨before, after, hcode⟩ := ih hc (by rwa [openRegion_eq]) hbody h
    obtain ⟨more, hmore⟩ : (body.run env d.openRegion).code.toList <+:
        ((region span body).run env d).code.toList := by
      by_cases hm : body.markers = []
      · simp [run, Draft.closeRegion, hm]
      · exact (closeRegion_closes env d.nextLabel span hm hf).extends.code
    refine ⟨.mark d.nextLabel :: before, after ++ more, ?_⟩
    rw [← hmore, hcode, openRegion_eq]
    simp
  | statement isLast body ih =>
    obtain ⟨before, after, hcode⟩ := ih hc hr (Draft.fault_run hf) h
    obtain ⟨more, hmore⟩ : (body.run env d).code.toList <+:
        ((statement isLast body).run env d).code.toList := (runOperations_builds hf).code
    exact ⟨before, after ++ more, by rw [← hmore, hcode]; simp⟩

theorem run_ends {c : Code} {d : Draft} (hc : c.All (· ≠ .areturn)) (hr : d.reachable = true)
    (hf : (c.run env d).fault = none) (ho : ∀ op ∈ ops, op.isPlain = true)
    (h : c.Ends (.line number :: ops)) :
    ∃ before, (c.run env d).code.toList =
      d.code.toList ++ (before ++ ops.map Operation.instruction) := by
  induction c generalizing d with
  | operations leaf =>
    obtain rfl : leaf = .line number :: ops := h
    exact runOperations_line ho hr hf
  | append first second ihFirst ihSecond =>
    have hfirst : (first.run env d).fault = none := fault_run env hf
    obtain ⟨more, hmore⟩ := (run_builds env hfirst).code
    obtain ⟨before, hcode⟩ := ihSecond hc.2 (readable_of_run env hc.1 hr hfirst).2 hf h
    exact ⟨more ++ before, by rw [run, hcode, ← hmore]; simp⟩
  | marker | region | statement => cases h

theorem Emitted.has {c : Code} {added : List Instruction} (h : c.Emitted env added)
    (hc : c.All (· ≠ .areturn)) (ho : ∀ op ∈ ops, op.isPlain = true)
    (hhas : c.Has (.line number :: ops)) : ops.map Operation.instruction <:+: added := by
  obtain ⟨d, hr, hf, hadded⟩ := h
  obtain ⟨before, after, hcode⟩ := run_has hc hr hf ho hhas
  rw [hadded] at hcode
  exact ⟨before, after, (List.append_cancel_left hcode).symm⟩

theorem Emitted.ends {c : Code} {added : List Instruction} (h : c.Emitted env added)
    (hc : c.All (· ≠ .areturn)) (ho : ∀ op ∈ ops, op.isPlain = true)
    (hends : c.Ends (.line number :: ops)) : ops.map Operation.instruction <:+ added := by
  obtain ⟨d, hr, hf, hadded⟩ := h
  obtain ⟨before, hcode⟩ := run_ends hc hr hf ho hends
  rw [hadded] at hcode
  exact ⟨before, (List.append_cancel_left hcode).symm⟩

/-- Code that returns the value of other code. -/
theorem Emitted.returned {c : Code} {added : List Instruction}
    (h : (append (.operations [.line number]) (.append c (.operations [.areturn]))).Emitted env
      added) (hc : c.All (· ≠ .areturn)) :
    ∃ lines inner, added = lines ++ inner ++ [.plain .areturn] ∧ c.Emitted env inner := by
  obtain ⟨d, hr, hf, hadded⟩ := h
  obtain ⟨d₁, hd₁⟩ : ∃ x, x = d.runOperations [.line number] := ⟨_, rfl⟩
  have hrun : (append (.operations [.line number]) (.append c (.operations [.areturn]))).run env d =
      (c.run env d₁).runOperations [.areturn] := by
    rw [hd₁]
    rfl
  rw [hrun] at hf hadded
  have hfine : (c.run env d₁).fault = none := Draft.fault_run hf
  have hline : d₁.fault = none := fault_run env hfine
  rw [hd₁] at hline
  have hr₁ : d₁.reachable = true := by
    rw [hd₁]
    exact (readable_of_runOperations (by simp) hr hline).2
  obtain ⟨lines, hlines⟩ := (runOperations_builds hline).code
  obtain ⟨inner, hinner, hemitted⟩ := emitted_of_run hr₁ hfine
  have hr₂ := (readable_of_run env hc hr₁ hfine).2
  have hreturn := plain_performs hr₂ hf
  have hcode : ((c.run env d₁).runOperations [.areturn]).code.toList =
      (c.run env d₁).code.toList ++ [.plain .areturn] := by
    have := hreturn.code
    exact (congrArg Array.toList this).trans (Array.toList_push ..)
  refine ⟨lines, inner, ?_, hemitted⟩
  rw [hcode, hinner, hd₁, ← hlines, List.append_assoc, List.append_assoc] at hadded
  rw [← List.append_cancel_left hadded, List.append_assoc]

end Code

end SmalltalkJvm
