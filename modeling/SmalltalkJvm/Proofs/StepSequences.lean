import SmalltalkJvm.Proofs.StackMaps

/-! # Any sequence of steps

A draft may be built by steps in any order. Those that do not concern labels either leave it as it
is, because control does not come there or the line is open already, or perform one instruction.
Labels can only be placed once they have been made.
-/

namespace SmalltalkJvm.Draft

inductive IsNew : Draft → Prop where
  | method (locals : List VerificationType) (lines : Bool) : IsNew (.method locals lines)
  | constructor (thisClass : String) (parameters : List VerificationType) (lines : Bool) :
      IsNew (.constructor thisClass parameters lines)

/-- Whether a step makes a label, places it or branches to it, or protects a range between some. -/
def Step.concernsLabels : Step → Bool
  | label | mark _ | markHandler .. | goto _ | protect _ => true
  | _ => false

def Step.placed? : Step → Option Label
  | mark placed | markHandler placed _ => some placed
  | _ => none

def Step.target? : Step → Option Label
  | goto target => some target
  | _ => none

def Step.adds? : Step → Option Instruction
  | mark placed | markHandler placed _ => some (.mark placed)
  | goto target => some (.jump .goto target)
  | _ => none

/-- Whether every label that steps use, to place it or to branch to it, is made before, with `n`
labels at the start. -/
def madeFirst (used? : Step → Option Label) (n : Nat) : List Step → Bool
  | [] => true
  | s :: steps =>
    (used? s).all (fun label => label.index < n) &&
      madeFirst used? (if s = .label then n + 1 else n) steps

theorem madeFirst_cons {used? : Step → Option Label} {n : Nat} {s : Step} {steps : List Step}
    (h : madeFirst used? n (s :: steps) = true) :
    (∀ label, used? s = some label → label.index < n) ∧
      madeFirst used? (if s = .label then n + 1 else n) steps = true := by
  rw [madeFirst, Bool.and_eq_true, Option.all_eq_true] at h
  exact ⟨fun label hlabel => of_decide_eq_true (h.1 label hlabel), h.2⟩

def placedLabels (steps : List Step) : List Label := steps.filterMap Step.placed?

variable {d : Draft}

section

variable (h : d.IsNew)

include h

theorem IsNew.code : d.code = #[] := by cases h <;> rfl

theorem IsNew.labels : d.labels = #[] := by cases h <;> rfl

theorem IsNew.entries : d.stack.entries = [] := by cases h <;> rfl

theorem IsNew.peak : d.peak = 0 := by cases h <;> rfl

theorem IsNew.locals : d.locals = d.entryLocals := by cases h <;> rfl

end

theorem concernsLabels_of_instruction? {s : Step} {i : Instruction} (h : s.instruction? = some i) :
    s.concernsLabels = false := by
  cases s <;> first | rfl | cases h

theorem step_of_not_reachable {s : Step} (hs : s.concernsLabels = false)
    (hr : d.reachable = false) : d.step s = d := by
  cases s <;> try cases hs
  case discard =>
    rw [step, discard]
    split <;> simp [plain, hr]
  all_goals
    simp [step, openLine, plain, pushInt, pushString, load, store, create, getStatic, invoke,
      invokeDynamic, hr]

/-- A step that does not concern labels changes nothing or performs one instruction. -/
theorem step_straight {s : Step} (hs : s.concernsLabels = false) (hf : (d.step s).fault = none) :
    d.step s = d ∨
      d.reachable = true ∧ ∃ i, i.isStraight = true ∧ d.Performs i (d.step s) := by
  cases hr : d.reachable with
  | false => exact .inl (step_of_not_reachable hs hr)
  | true =>
    cases hi : s.instruction? with
    | some i =>
      exact .inr ⟨rfl, i, isStraight_of_instruction? hi, step_performs hr hi hf⟩
    | none =>
      cases s with
      | line number =>
        exact (line_performs hr number).imp_right fun h => ⟨rfl, _, rfl, h⟩
      | discard =>
        rcases discard_performs hr hf with h | ⟨h, -⟩
        · exact .inr ⟨rfl, .plain .pop, rfl, h⟩
        · exact .inr ⟨rfl, .plain .pop2, rfl, h⟩
      | label | mark | markHandler | goto | protect => cases hs
      | _ => cases hi

theorem code_mark (d : Draft) (label : Label) :
    (d.mark label).code = d.code.push (.mark label) := by
  have hmeet : (d.meet label).code = d.code := by
    unfold meet
    split_ifs
    · rfl
    · split <;> rfl
  rw [← hmeet]
  rfl

theorem size_mark (d : Draft) (label : Label) :
    (d.mark label).labels.size = d.labels.size := by
  have hmeet : (d.meet label).labels.size = d.labels.size := by
    unfold meet
    split_ifs
    · simp [modifyLabel]
    · split <;> rfl
  simp [mark, append, modifyLabel, hmeet]

/-- Only making a label adds one. -/
theorem size_step {s : Step} (hf : (d.step s).fault = none) :
    (d.step s).labels.size = if s = .label then d.labels.size + 1 else d.labels.size := by
  cases s with
  | label => simp [step, addLabel]
  | mark label => simp [step, size_mark]
  | markHandler label exception => simp [step, markHandler, size_mark, modifyLabel]
  | goto target => cases hr : d.reachable <;> simp [step, goto, hr, append, modifyLabel]
  | protect entry => rfl
  | _ =>
    rcases step_straight rfl hf with h | ⟨-, i, -, h⟩
    · simp [h]
    · simp [h.labels]

/-- Steps that place no label twice, none of those placed before, and none of those that are not
made yet, with `n` labels at the start. -/
structure PlacesNew (n : Nat) (placed : List Label) (steps : List Step) : Prop where
  made : madeFirst Step.placed? n steps = true
  once : (placedLabels steps).Nodup
  fresh : ∀ label ∈ placedLabels steps, label ∉ placed

theorem IsNew.placesNew (h : d.IsNew) {steps : List Step}
    (hmade : madeFirst Step.placed? 0 steps = true) (honce : (placedLabels steps).Nodup) :
    PlacesNew d.labels.size [] steps := by
  rw [h.labels]
  exact ⟨hmade, honce, by simp⟩

/-- The first of such steps places no label, or one that is not placed before or after it. -/
theorem PlacesNew.cases_cons {placed : List Label} {s : Step} {steps : List Step}
    (h : PlacesNew d.labels.size placed (s :: steps)) (hf : (d.step s).fault = none) :
    s.placed? = none ∧ PlacesNew (d.step s).labels.size placed steps ∨
      ∃ label, s.placed? = some label ∧ label ∉ placed ∧ label.index < d.labels.size ∧
        label ∉ placedLabels steps ∧ PlacesNew (d.step s).labels.size (label :: placed) steps := by
  obtain ⟨hmade, honce, hfresh⟩ := h
  obtain ⟨hindex, hmade⟩ := madeFirst_cons hmade
  rw [← size_step hf] at hmade
  cases hs : s.placed? with
  | none =>
    have hlabels : placedLabels (s :: steps) = placedLabels steps := List.filterMap_cons_none hs
    rw [hlabels] at honce hfresh
    exact .inl ⟨rfl, hmade, honce, hfresh⟩
  | some label =>
    have hlabels : placedLabels (s :: steps) = label :: placedLabels steps :=
      List.filterMap_cons_some hs
    rw [hlabels] at honce hfresh
    obtain ⟨hlabel, honce⟩ := List.nodup_cons.1 honce
    obtain ⟨hnew, hfresh⟩ := List.forall_mem_cons.1 hfresh
    refine .inr ⟨label, rfl, hnew, hindex label hs, hlabel, hmade, honce, ?_⟩
    intro other hother hmem
    rcases List.mem_cons.1 hmem with rfl | hmem
    · exact hlabel hother
    · exact hfresh other hother hmem

structure SameVariables (d d' : Draft) : Prop where
  entryLocals : d'.entryLocals = d.entryLocals
  locals : d'.locals = d.locals
  thisClass : d'.thisClass = d.thisClass

theorem sameVariables_mark (d : Draft) (label : Label) : d.SameVariables (d.mark label) := by
  have hmeet : d.SameVariables (d.meet label) := by
    unfold meet
    split_ifs
    · exact ⟨rfl, rfl, rfl⟩
    · split <;> exact ⟨rfl, rfl, rfl⟩
  exact ⟨hmeet.entryLocals, hmeet.locals, hmeet.thisClass⟩

/-- What is done to labels leaves the variables alone. -/
theorem sameVariables_step {s : Step} (hs : s.concernsLabels = true) :
    d.SameVariables (d.step s) := by
  cases s with
  | mark label => exact d.sameVariables_mark label
  | markHandler label exception =>
    have hmark := sameVariables_mark { d.modifyLabel label fun r =>
      { r with stack := some [.object exception], targeted := true } with reachable := false } label
    exact ⟨hmark.entryLocals, hmark.locals, hmark.thisClass⟩
  | goto target =>
    simp only [step, goto]
    split_ifs <;> exact ⟨rfl, rfl, rfl⟩
  | label | protect => exact ⟨rfl, rfl, rfl⟩
  | _ => cases hs

theorem isStraight_of_adds? {s : Step} {i : Instruction} (h : s.adds? = some i) :
    i.isStraight = false := by
  cases s with
  | mark label | markHandler label exception | goto target =>
    cases h
    rfl
  | _ => cases h

/-- A step adds a label, a branch or nothing, and leaves the variables alone, or it performs one
instruction. -/
theorem step_adds {s : Step} (hf : (d.step s).fault = none) :
    d.SameVariables (d.step s) ∧ ((d.step s).code = d.code ∨
        ∃ i, s.adds? = some i ∧ (d.step s).code = d.code.push i) ∨
      ∃ i, i.isStraight = true ∧ d.Performs i (d.step s) := by
  cases hs : s.concernsLabels with
  | true =>
    refine .inl ⟨sameVariables_step hs, ?_⟩
    cases s with
    | mark label => exact .inr ⟨.mark label, rfl, d.code_mark label⟩
    | markHandler label exception => exact .inr ⟨.mark label, rfl, code_mark _ label⟩
    | goto target =>
      simp only [step, goto]
      split_ifs
      · exact .inr ⟨.jump .goto target, rfl, rfl⟩
      · exact .inl rfl
    | label | protect => exact .inl rfl
    | _ => cases hs
  | false =>
    rcases step_straight hs hf with h | ⟨-, i, hi, h⟩
    · rw [h]
      exact .inl ⟨⟨rfl, rfl, rfl⟩, .inl rfl⟩
    · exact .inr ⟨i, hi, h⟩

/-- What every step without a fault keeps holds after any sequence of them. -/
theorem run_induction {P : Draft → Prop}
    (hstep : ∀ {d : Draft} {s : Step}, P d → (d.step s).fault = none → P (d.step s)) (h : P d)
    {steps : List Step} (hf : (d.run steps).fault = none) : P (d.run steps) := by
  induction steps generalizing d with
  | nil => exact h
  | cons s steps ih => exact ih (hstep h (fault_run hf)) hf

theorem entryLocals_step {s : Step} (hf : (d.step s).fault = none) :
    (d.step s).entryLocals = d.entryLocals := by
  rcases step_adds hf with ⟨h, -⟩ | ⟨i, -, h⟩
  · exact h.entryLocals
  · exact h.entryLocals

theorem entryLocals_run {steps : List Step} (hf : (d.run steps).fault = none) :
    (d.run steps).entryLocals = d.entryLocals :=
  run_induction (P := fun d' => d'.entryLocals = d.entryLocals)
    (fun h hf => (entryLocals_step hf).trans h) rfl hf

end SmalltalkJvm.Draft
