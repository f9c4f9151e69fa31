import SmalltalkJvm.Proofs.Layout
import SmalltalkJvm.Proofs.Machine

/-! # Verification with stack maps

A body with stack maps is verified in one pass from its first instruction to its last. The pass
carries the types that control runs on with, or nothing behind an instruction that ends the flow.
At a label with a frame it goes on with what the frame says, and at a branch it compares the types
with the frame of the target.

A verified body is sound: whatever way control takes through it, along the code, by branches and
to the handlers of exceptions thrown anywhere in their ranges, every instruction finds the types it
needs, and the types at each label are those of its frame.
-/

namespace SmalltalkJvm

def Instruction.label? : Instruction → Option Label
  | mark label | jump _ label => some label
  | _ => none

theorem Instruction.label?_of_isStraight {i : Instruction} (h : i.isStraight = true) :
    i.label? = none := by
  cases i <;> first | rfl | cases h

/-- No instruction places or branches to a label that stands before it. -/
def LabelsAhead (code : List Instruction) : Prop :=
  code.Pairwise fun i j => ∀ label, i = .mark label → j.label? ≠ some label

def Any : Flow → Instruction → Prop := fun _ _ => True

section

variable (P : Flow → Instruction → Prop) (frame? : Label → Option (List VerificationType))
  (this : Option String) (locals : List VerificationType)

/-- One instruction of the pass, with the types before and after it. What is asked of an instruction
and the types it finds, beyond its effect, is a parameter. -/
inductive Passes (place : Nat) : Option Flow → Instruction → Option Flow → Prop where
  | unframed {state : Option Flow} {label : Label} (h : frame? label = none) :
      Passes place state (.mark label) state
  | framed {state : Option Flow} {label : Label} {stack : List VerificationType}
      (h : frame? label = some stack) (same : ∀ f, state = some f → f = ⟨stack, locals⟩) :
      Passes place state (.mark label) (some ⟨stack, locals⟩)
  | branch {f : Flow} {label : Label} (h : frame? label = some f.stack)
      (same : f.locals = locals) : Passes place (some f) (.jump .goto label) none
  | straight {f f' : Flow} {i : Instruction} (h : i.isStraight = true)
      (effect : i.effect? this place f = some f') (holds : P f i) :
      Passes place (some f) i (if i.endsFlow then none else some f')

inductive Verifies : Nat → Option Flow → List Instruction → Option Flow → Prop where
  | nil (place : Nat) (state : Option Flow) : Verifies place state [] state
  | cons {place : Nat} {before middle after : Option Flow} {i : Instruction}
      {code : List Instruction} (passes : Passes P frame? this locals place before i middle)
      (rest : Verifies (place + 1) middle code after) : Verifies place before (i :: code) after

end

section

variable {P : Flow → Instruction → Prop} {frame? : Label → Option (List VerificationType)}
  {this : Option String} {locals : List VerificationType}

theorem Passes.effect {place : Nat} {f : Flow} {i : Instruction} {after : Option Flow}
    (h : Passes P frame? this locals place (some f) i after) :
    ∃ f', i.effect? this place f = some f' ∧ (i.endsFlow = false → after = some f') := by
  cases h with
  | unframed _ => exact ⟨f, rfl, fun _ => rfl⟩
  | framed h same => exact ⟨f, rfl, fun _ => by rw [same f rfl]⟩
  | branch _ _ => exact ⟨f, rfl, by rintro ⟨⟩⟩
  | straight _ effect _ => exact ⟨_, effect, fun hends => by simp [hends]⟩

theorem Passes.none_of_endsFlow {place : Nat} {before after : Option Flow} {i : Instruction}
    (h : Passes P frame? this locals place before i after) (hends : i.endsFlow = true) :
    after = none := by
  cases h with
  | unframed _ => cases hends
  | framed _ _ => cases hends
  | branch _ _ => rfl
  | straight _ _ _ => simp [hends]

theorem Verifies.append {place : Nat} {s₁ s₂ s₃ : Option Flow} {first second : List Instruction}
    (h₁ : Verifies P frame? this locals place s₁ first s₂)
    (h₂ : Verifies P frame? this locals (place + first.length) s₂ second s₃) :
    Verifies P frame? this locals place s₁ (first ++ second) s₃ := by
  induction h₁ with
  | nil place state => exact h₂
  | cons passes rest ih =>
    refine .cons passes (ih ?_)
    rwa [List.length_cons, ← Nat.add_assoc, Nat.add_right_comm] at h₂

theorem Verifies.single {place : Nat} {s s' : Option Flow} {i : Instruction}
    (h : Passes P frame? this locals place s i s') : Verifies P frame? this locals place s [i] s' :=
  .cons h (.nil _ _)

/-- A verified list can be entered anywhere. -/
theorem Verifies.drop {place : Nat} {s s' : Option Flow} {code : List Instruction}
    (h : Verifies P frame? this locals place s code s') {i : Nat} (hi : i ≤ code.length) :
    ∃ middle, Verifies P frame? this locals (place + i) middle (code.drop i) s' := by
  induction h generalizing i with
  | nil place state => exact ⟨_, by simpa using Verifies.nil _ _⟩
  | cons passes rest ih =>
    cases i with
    | zero => exact ⟨_, .cons passes rest⟩
    | succ i =>
      obtain ⟨middle, h⟩ := ih (Nat.le_of_succ_le_succ hi)
      refine ⟨middle, ?_⟩
      rwa [Nat.add_right_comm, Nat.add_assoc] at h

/-- Behind an instruction that ends the flow, code starts with a framed label. -/
theorem Verifies.framed_of_none {place : Nat} {s' : Option Flow} {code : List Instruction}
    (h : Verifies P frame? this locals place none code s') {j : Nat} {i : Instruction}
    (hi : code[j]? = some i) (hmark : ∀ label, i ≠ .mark label) :
    ∃ k < j, ∃ label stack, code[k]? = some (.mark label) ∧ frame? label = some stack := by
  induction code generalizing place j with
  | nil => cases hi
  | cons i₀ code ih =>
    obtain _ | ⟨passes, rest⟩ := h
    cases j with
    | zero =>
      cases hi
      cases passes with
      | unframed _ => exact absurd rfl (hmark _)
      | framed _ _ => exact absurd rfl (hmark _)
    | succ j =>
      cases passes with
      | unframed _ =>
        obtain ⟨k, hk, label, stack, hl, hs⟩ := ih rest hi
        exact ⟨k + 1, Nat.succ_lt_succ hk, label, stack, hl, hs⟩
      | @framed _ label stack h _ => exact ⟨0, Nat.succ_pos j, label, stack, rfl, h⟩

/-- Code that control does not run out of ends with an instruction that ends the flow, up to labels
that nothing branches to. -/
theorem Verifies.ends {place : Nat} {s : Option Flow} {code : List Instruction}
    (h : Verifies P frame? this locals place s code none) :
    (s = none ∧ ∀ i ∈ code, ∃ label, i = .mark label ∧ frame? label = none) ∨
      ∃ before i after, code = before ++ i :: after ∧ i.endsFlow = true ∧
        ∀ j ∈ after, ∃ label, j = .mark label ∧ frame? label = none := by
  induction code generalizing place s with
  | nil =>
    cases h
    exact .inl ⟨rfl, by simp⟩
  | cons i code ih =>
    obtain _ | ⟨passes, rest⟩ := h
    have hlater {before after : List Instruction} {j : Instruction}
        (hcode : code = before ++ j :: after) (hj : j.endsFlow = true)
        (hafter : ∀ j ∈ after, ∃ label, j = .mark label ∧ frame? label = none) :
        ∃ before j after, i :: code = before ++ j :: after ∧ j.endsFlow = true ∧
          ∀ j ∈ after, ∃ label, j = .mark label ∧ frame? label = none :=
      ⟨i :: before, j, after, by rw [hcode, List.cons_append], hj, hafter⟩
    rcases ih rest with ⟨hnone, hmarks⟩ | ⟨before, j, after, hcode, hj, hafter⟩
    · cases passes with
      | @unframed _ label h =>
        refine .inl ⟨hnone, fun j hj => ?_⟩
        rcases List.mem_cons.1 hj with rfl | hj
        · exact ⟨label, rfl, h⟩
        · exact hmarks j hj
      | framed _ _ => cases hnone
      | branch _ _ => exact .inr ⟨[], _, code, rfl, rfl, hmarks⟩
      | straight _ _ _ =>
        refine .inr ⟨[], _, code, rfl, ?_, hmarks⟩
        by_contra hends
        simp [hends] at hnone
    · exact .inr (hlater hcode hj hafter)

end

def ExceptionEntry.caught (e : ExceptionEntry) : VerificationType :=
  .object (e.catches.getD "java/lang/Throwable")

namespace MethodBody

variable (b : MethodBody) (this : Option String)

/-- The stack, top first, that a frame records for a label. -/
def frame? (label : Label) : Option (List VerificationType) :=
  (b.frames.find? fun f => f.label = label).map fun f => f.stack.reverse

/-- The types with which control can come to a place: from the entry along the code, by a branch,
or to a handler from any instruction in its range. -/
inductive Arrives : Nat → Flow → Prop where
  | entry : Arrives 0 ⟨[], b.locals⟩
  | next {place : Nat} {f f' : Flow} {i : Instruction} (h : Arrives place f)
      (hi : b.instructions[place]? = some i) (hends : i.endsFlow = false)
      (heffect : i.effect? this place f = some f') : Arrives (place + 1) f'
  | branch {place : Nat} {f : Flow} {op : Opcode} {label : Label} (h : Arrives place f)
      (hi : b.instructions[place]? = some (.jump op label)) : Arrives (b.place label) f
  | caught {place : Nat} {f : Flow} {e : ExceptionEntry} (h : Arrives place f)
      (he : e ∈ b.handlers) (hcovers : b.covers e place = true) :
      Arrives (b.place e.handler) ⟨[e.caught], f.locals⟩

/-- What one pass over a body establishes. -/
structure Verified (P : Flow → Instruction → Prop := Any) : Prop where
  code : Verifies P b.frame? this b.locals 0 (some ⟨[], b.locals⟩) b.instructions none
  ahead : LabelsAhead b.instructions
  distinct : (b.frames.map Frame.label).Nodup
  placed (label : Label) (stack : List VerificationType) (h : b.frame? label = some stack) :
    .mark label ∈ b.instructions
  ranges : ∀ e ∈ b.handlers, .mark e.start ∈ b.instructions ∧ .mark e.stop ∈ b.instructions
  handlers : ∀ e ∈ b.handlers, ∃ exception, e.catches = some exception ∧
    b.frame? e.handler = some [.object exception]
  locals (h : b.frames ≠ []) : ∀ i ∈ b.instructions, i.keepsLocals = true

/-- A body whose frames tell the truth about every way through it. -/
structure Sound : Prop where
  /-- Control stays in the code, and no instruction finds too little on the stack. -/
  executes {place : Nat} {f : Flow} (h : b.Arrives this place f) :
    ∃ i f', b.instructions[place]? = some i ∧ i.effect? this place f = some f'
  branches {place : Nat} {f : Flow} {op : Opcode} {label : Label} (h : b.Arrives this place f)
    (hi : b.instructions[place]? = some (.jump op label)) : b.frame? label = some f.stack
  falls {place : Nat} {f : Flow} {label : Label} {stack : List VerificationType}
    (h : b.Arrives this place f) (hi : b.instructions[place]? = some (.mark label))
    (hframe : b.frame? label = some stack) : f.stack = stack
  handlers : ∀ e ∈ b.handlers, ∃ exception, e.catches = some exception ∧
    b.frame? e.handler = some [.object exception]
  /-- What stands behind the end of a flow stands behind a framed label, too. -/
  preceded {p q : Nat} {i j : Instruction} (hpq : p < q) (hi : b.instructions[p]? = some i)
    (hends : i.endsFlow = true) (hj : b.instructions[q]? = some j)
    (hmark : ∀ label, j ≠ .mark label) :
    ∃ k, p < k ∧ k < q ∧ ∃ label stack, b.instructions[k]? = some (.mark label) ∧
      b.frame? label = some stack
  /-- Behind the last instruction there are at most labels without a frame. -/
  last : ∃ before i after, b.instructions = before ++ i :: after ∧ i.endsFlow = true ∧
    ∀ j ∈ after, ∃ label, j = .mark label ∧ b.frame? label = none
  forward {place : Nat} {op : Opcode} {label : Label}
    (hi : b.instructions[place]? = some (.jump op label)) :
    place < b.place label ∧ b.place label < b.instructions.length
  /-- Where there are frames, the local variables stay those of the entry. -/
  locals (h : b.frames ≠ []) : (∀ i ∈ b.instructions, i.keepsLocals = true) ∧
    ∀ {place : Nat} {f : Flow}, b.Arrives this place f → f.locals = b.locals
  distinct : (b.frames.map Frame.label).Nodup
  once (label : Label) : b.instructions.count (.mark label) ≤ 1
  placed (label : Label) (stack : List VerificationType) (h : b.frame? label = some stack) :
    .mark label ∈ b.instructions
  ranges : ∀ e ∈ b.handlers, .mark e.start ∈ b.instructions ∧ .mark e.stop ∈ b.instructions

variable {b} {this} {P : Flow → Instruction → Prop}

theorem frames_ne_nil {label : Label} {stack : List VerificationType}
    (h : b.frame? label = some stack) : b.frames ≠ [] := by
  rintro hnil
  simp [frame?, hnil] at h

theorem getElem?_place {label : Label} (h : .mark label ∈ b.instructions) :
    b.instructions[b.place label]? = some (.mark label) := by
  rw [List.getElem?_eq_some_iff]
  exact ⟨List.idxOf_lt_length_of_mem h, List.getElem_idxOf _⟩

theorem Arrives.locals_eq (hkeeps : ∀ i ∈ b.instructions, i.keepsLocals = true) {place : Nat}
    {f : Flow} (h : b.Arrives this place f) : f.locals = b.locals := by
  induction h with
  | entry => rfl
  | next h hi hends heffect ih =>
    rw [Instruction.effect?_locals (hkeeps _ (List.mem_of_getElem? hi)) heffect, ih]
  | branch h hi ih => exact ih
  | caught h he hcovers ih => exact ih

/-- The pass meets the types with which control arrives: it carries them there, or it stands at a
label whose frame they are. -/
def Meets (b : MethodBody) (this : Option String) (P : Flow → Instruction → Prop) (place : Nat)
    (f : Flow) : Prop :=
  ∃ state, Verifies P b.frame? this b.locals place state (b.instructions.drop place) none ∧
    (state = some f ∨ ∃ label, b.instructions[place]? = some (.mark label) ∧
      b.frame? label = some f.stack ∧ f.locals = b.locals)

/-- Where the pass meets an arrival, it passes an instruction, from the types of the arrival. -/
theorem Meets.passes {place : Nat} {f : Flow} (h : b.Meets this P place f) :
    ∃ i after, b.instructions[place]? = some i ∧
      Passes P b.frame? this b.locals place (some f) i after ∧
      Verifies P b.frame? this b.locals (place + 1) after (b.instructions.drop (place + 1))
        none := by
  obtain ⟨state, hverifies, hstate⟩ := h
  cases hi : b.instructions[place]? with
  | none =>
    have hdrop : b.instructions.drop place = [] := by
      rw [List.drop_eq_nil_iff]
      exact List.getElem?_eq_none_iff.1 hi
    rw [hdrop] at hverifies
    cases hverifies
    rcases hstate with hstate | ⟨label, hlabel, -⟩
    · cases hstate
    · rw [hi] at hlabel
      cases hlabel
  | some i =>
    obtain ⟨hlt, rfl⟩ := List.getElem?_eq_some_iff.1 hi
    rw [List.drop_eq_getElem_cons hlt] at hverifies
    obtain _ | ⟨passes, rest⟩ := hverifies
    rcases hstate with rfl | ⟨label, hlabel, hframe, hlocals⟩
    · exact ⟨_, _, rfl, passes, rest⟩
    · rw [hi, Option.some.injEq] at hlabel
      rw [hlabel] at passes ⊢
      cases passes with
      | unframed hnone => simp [hframe] at hnone
      | framed h same =>
        rw [hframe, Option.some.injEq] at h
        subst h
        refine ⟨_, _, rfl, .framed hframe ?_, rest⟩
        rintro f' ⟨⟩
        rw [← hlocals]
      | straight h _ _ => cases h

theorem meets_place (h : b.Verified this P) {label : Label} {f : Flow}
    (hframe : b.frame? label = some f.stack) (hlocals : f.locals = b.locals) :
    b.Meets this P (b.place label) f := by
  have hmem := h.placed label _ hframe
  obtain ⟨middle, hverifies⟩ := h.code.drop (List.idxOf_le_length (a := .mark label))
  rw [Nat.zero_add] at hverifies
  exact ⟨middle, hverifies, .inr ⟨label, getElem?_place hmem, hframe, hlocals⟩⟩

/-- The invariant of every way through a verified body. -/
theorem Arrives.meets (hb : b.Verified this P) {place : Nat} {f : Flow}
    (h : b.Arrives this place f) :
    b.Meets this P place f := by
  induction h with
  | entry => exact ⟨_, hb.code, .inl rfl⟩
  | @next place f f' i h hi hends heffect ih =>
    obtain ⟨j, after, hj, hpasses, hrest⟩ := ih.passes
    obtain rfl : j = i := by simpa [hi] using hj.symm
    obtain ⟨f₁, hf₁, hafter⟩ := hpasses.effect
    obtain rfl : f₁ = f' := by simpa [heffect] using hf₁.symm
    exact ⟨_, hrest, .inl (hafter hends)⟩
  | @branch place f op label h hi ih =>
    obtain ⟨j, after, hj, hpasses, -⟩ := ih.passes
    obtain rfl : j = .jump op label := by simpa [hi] using hj.symm
    cases hpasses with
    | branch hframe hlocals => exact meets_place hb hframe hlocals
    | straight hs _ _ => cases hs
  | @caught place f e h he hcovers ih =>
    obtain ⟨exception, hcatches, hframe⟩ := hb.handlers e he
    have hlocals := Arrives.locals_eq (hb.locals (frames_ne_nil hframe)) h
    refine meets_place hb ?_ hlocals
    rw [hframe, ExceptionEntry.caught, hcatches]
    rfl

theorem count_le_one {code : List Instruction} (h : LabelsAhead code) (label : Label) :
    code.count (.mark label) ≤ 1 := by
  induction code with
  | nil => simp
  | cons i code ih =>
    obtain ⟨hi, h⟩ := List.pairwise_cons.1 h
    by_cases heq : i = .mark label
    · have hnot : .mark label ∉ code := fun hmem => hi _ hmem label heq rfl
      simp [heq, List.count_eq_zero_of_not_mem hnot]
    · rw [List.count_cons_of_ne heq]
      exact ih h

/-- A branch goes to a label further on. -/
theorem place_of_jump (hb : b.Verified this P) {place : Nat} {op : Opcode} {label : Label}
    (hi : b.instructions[place]? = some (.jump op label)) :
    place < b.place label ∧ b.place label < b.instructions.length := by
  obtain ⟨hlt, hget⟩ := List.getElem?_eq_some_iff.1 hi
  obtain ⟨middle, hverifies⟩ := hb.code.drop (Nat.le_of_lt hlt)
  rw [List.drop_eq_getElem_cons hlt, hget] at hverifies
  obtain _ | ⟨passes, -⟩ := hverifies
  cases passes with
  | straight hs _ _ => cases hs
  | branch hframe _ =>
    have hmem := hb.placed _ _ hframe
    refine ⟨?_, List.idxOf_lt_length_of_mem hmem⟩
    have hplace := getElem?_place hmem
    obtain ⟨hlt', hget'⟩ := List.getElem?_eq_some_iff.1 hplace
    rcases Nat.lt_trichotomy place (b.place label) with h | h | h
    · exact h
    · simp only [← h, hget, reduceCtorEq] at hget'
    · refine absurd ?_ (List.pairwise_iff_getElem.1 hb.ahead _ _ hlt' hlt h label hget')
      rw [hget]
      rfl

theorem framed_between (hb : b.Verified this P) {p q : Nat} {i j : Instruction} (hpq : p < q)
    (hi : b.instructions[p]? = some i) (hends : i.endsFlow = true)
    (hj : b.instructions[q]? = some j) (hmark : ∀ label, j ≠ .mark label) :
    ∃ k, p < k ∧ k < q ∧ ∃ label stack, b.instructions[k]? = some (.mark label) ∧
      b.frame? label = some stack := by
  obtain ⟨hlt, rfl⟩ := List.getElem?_eq_some_iff.1 hi
  obtain ⟨middle, hverifies⟩ := hb.code.drop (Nat.le_of_lt hlt)
  rw [List.drop_eq_getElem_cons hlt] at hverifies
  obtain _ | ⟨passes, rest⟩ := hverifies
  rw [passes.none_of_endsFlow hends] at rest
  obtain ⟨n, rfl⟩ : ∃ n, q = p + 1 + n := ⟨q - (p + 1), by omega⟩
  obtain ⟨k, hk, label, stack, hlabel, hframe⟩ :=
    rest.framed_of_none (by rwa [List.getElem?_drop]) hmark
  rw [List.getElem?_drop] at hlabel
  exact ⟨p + 1 + k, by omega, by omega, label, stack, hlabel, hframe⟩

/-- Whatever way control takes, each instruction finds what is asked for. -/
theorem Verified.holds (hb : b.Verified this P) {place : Nat} {f : Flow} {i : Instruction}
    (h : b.Arrives this place f) (hi : b.instructions[place]? = some i)
    (hs : i.isStraight = true) : P f i := by
  obtain ⟨j, after, hj, hpasses, -⟩ := (h.meets hb).passes
  obtain rfl := Option.some.inj (hj.symm.trans hi)
  cases hpasses with
  | unframed _ => cases hs
  | framed _ _ => cases hs
  | branch _ _ => cases hs
  | straight _ _ holds => exact holds

/-- A verified body is sound. -/
theorem Verified.sound (hb : b.Verified this P) : b.Sound this where
  executes h := by
    obtain ⟨i, after, hi, hpasses, -⟩ := (h.meets hb).passes
    obtain ⟨f', heffect, -⟩ := hpasses.effect
    exact ⟨i, f', hi, heffect⟩
  branches h hi := by
    obtain ⟨j, after, hj, hpasses, -⟩ := (h.meets hb).passes
    obtain rfl := Option.some.inj (hj.symm.trans hi)
    cases hpasses with
    | branch hframe _ => exact hframe
    | straight hs _ _ => cases hs
  falls h hi hframe := by
    obtain ⟨j, after, hj, hpasses, -⟩ := (h.meets hb).passes
    obtain rfl := Option.some.inj (hj.symm.trans hi)
    cases hpasses with
    | unframed hnone => simp [hframe] at hnone
    | framed hframe' same =>
      rw [hframe, Option.some.injEq] at hframe'
      rw [same _ rfl, hframe']
    | straight hs _ _ => cases hs
  handlers := hb.handlers
  preceded := framed_between hb
  last := by
    rcases hb.code.ends with ⟨hnone, -⟩ | hlast
    · cases hnone
    · exact hlast
  forward := place_of_jump hb
  locals h := ⟨hb.locals h, fun harrives => harrives.locals_eq (hb.locals h)⟩
  distinct := hb.distinct
  once := count_le_one hb.ahead
  placed := hb.placed
  ranges := hb.ranges

end MethodBody
end SmalltalkJvm
