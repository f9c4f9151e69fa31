import SmalltalkJvm.Proofs.Catching
import SmalltalkJvm.Proofs.Sendings

/-! # Code that spells things out

Code in which some things are done, one after the other, each by a piece of its own, with
instructions in between that are of no concern. Structured code spells out what its parts do, in
their order: regions and the ends of statements only add to what is in between.
-/

namespace SmalltalkJvm

/-- Code is made of pieces that spell out some things, in their order, and of instructions in
between that may be skipped. -/
inductive Spells {σ : Type} (skipped : Instruction → Prop) (spelled : σ → List Instruction → Prop) :
    List Instruction → List σ → Prop where
  | nil : Spells skipped spelled [] []
  | skip {i : Instruction} {code : List Instruction} {things : List σ} (hi : skipped i)
      (h : Spells skipped spelled code things) : Spells skipped spelled (i :: code) things
  | piece {x : σ} {piece code : List Instruction} {things : List σ} (hx : spelled x piece)
      (h : Spells skipped spelled code things) :
      Spells skipped spelled (piece ++ code) (x :: things)

namespace Spells

variable {σ : Type} {skipped : Instruction → Prop} {spelled : σ → List Instruction → Prop}
  {code code' : List Instruction} {things things' : List σ}

theorem append (h : Spells skipped spelled code things)
    (h' : Spells skipped spelled code' things') :
    Spells skipped spelled (code ++ code') (things ++ things') := by
  induction h with
  | nil => exact h'
  | skip hi _ ih => exact ih.skip hi
  | piece hx _ ih =>
    rw [List.append_assoc]
    exact ih.piece hx

theorem none (h : ∀ i ∈ code, skipped i) : Spells skipped spelled code [] := by
  induction code with
  | nil => exact .nil
  | cons i code ih =>
    obtain ⟨hi, hcode⟩ := List.forall_mem_cons.1 h
    exact (ih hcode).skip hi

theorem one {x : σ} {piece : List Instruction} (hx : spelled x piece) :
    Spells skipped spelled piece [x] := by
  rw [← List.append_nil piece]
  exact Spells.nil.piece hx

/-- Instructions that belong to no piece can be left out. -/
theorem filter (h : Spells skipped spelled code things) (p : Instruction → Bool)
    (hp : ∀ x piece, spelled x piece → ∀ i ∈ piece, p i = true) :
    Spells skipped spelled (code.filter p) things := by
  induction h with
  | nil => exact .nil
  | @skip i code things hi _ ih =>
    rw [List.filter_cons]
    split_ifs
    · exact ih.skip hi
    · exact ih
  | @piece x piece code things hx _ ih =>
    rw [List.filter_append, List.filter_eq_self.2 (hp x piece hx)]
    exact ih.piece hx

/-- Every thing has its piece of the code. -/
theorem exists_infix (h : Spells skipped spelled code things) {x : σ} (hx : x ∈ things) :
    ∃ piece, spelled x piece ∧ piece <:+: code := by
  induction h with
  | nil => cases hx
  | skip hi _ ih =>
    obtain ⟨piece, hpiece, hinfix⟩ := ih hx
    exact ⟨piece, hpiece, List.infix_cons hinfix⟩
  | @piece y first code things hy _ ih =>
    rcases List.mem_cons.1 hx with rfl | hx
    · exact ⟨first, hy, (List.prefix_append first code).isInfix⟩
    · obtain ⟨piece, hpiece, hinfix⟩ := ih hx
      exact ⟨piece, hpiece, hinfix.trans (List.suffix_append first code).isInfix⟩

/-- What holds of all instructions in between and in the pieces. -/
theorem forall_mem (h : Spells skipped spelled code things) {P : Instruction → Prop}
    (hskipped : ∀ i, skipped i → P i)
    (hspelled : ∀ x ∈ things, ∀ piece, spelled x piece → ∀ i ∈ piece, P i) :
    ∀ i ∈ code, P i := by
  induction h with
  | nil => simp
  | skip hi _ ih => exact List.forall_mem_cons.2 ⟨hskipped _ hi, ih hspelled⟩
  | piece hx _ ih =>
    obtain ⟨hfirst, hrest⟩ := List.forall_mem_cons.1 hspelled
    exact List.forall_mem_append.2 ⟨hfirst _ hx, ih hrest⟩

/-- The first thing, with what comes before and after its piece. -/
theorem exists_first {x : σ} (h : Spells skipped spelled code (x :: things)) :
    ∃ before piece after, code = before ++ (piece ++ after) ∧ (∀ i ∈ before, skipped i) ∧
      spelled x piece ∧ Spells skipped spelled after things := by
  generalize hall : x :: things = all at h
  induction h with
  | nil => cases hall
  | @skip i code _ hi _ ih =>
    obtain ⟨before, piece, after, rfl, hbefore, hpiece, hafter⟩ := ih hall
    exact ⟨i :: before, piece, after, rfl, List.forall_mem_cons.2 ⟨hi, hbefore⟩, hpiece, hafter⟩
  | @piece _ piece code _ hx h _ =>
    cases hall
    exact ⟨[], piece, code, rfl, by simp, hx, h⟩

end Spells

def Instruction.CallsOnly (names : List String) : Instruction → Prop
  | .invoke _ method => method.name ∈ names
  | _ => True

/-- An instruction such as regions and the ends of statements put between constructs. -/
def Instruction.IsFraming (i : Instruction) : Prop := i.CallsOnly ["answer", "referenceNil"]

section

variable {σ : Type} (skipped : Instruction → Prop) (spelled : σ → List Instruction → Prop)

def Draft.Spells (d d' : Draft) (things : List σ) : Prop :=
  ∃ added, d'.code.toList = d.code.toList ++ added ∧
    SmalltalkJvm.Spells skipped spelled added things

def Code.Spells (env : Env) (c : Code) (things : List σ) : Prop :=
  ∀ d : Draft, d.reachable = true → (c.run env d).fault = none →
    d.Spells skipped spelled (c.run env d) things

variable {skipped spelled} {d d' : Draft} {things : List σ}

namespace Draft

theorem Spells.trans {d₁ : Draft} {before after : List σ}
    (h₁ : d.Spells skipped spelled d₁ before) (h₂ : d₁.Spells skipped spelled d' after) :
    d.Spells skipped spelled d' (before ++ after) := by
  obtain ⟨added₁, hcode₁, hspells₁⟩ := h₁
  obtain ⟨added₂, hcode₂, hspells₂⟩ := h₂
  exact ⟨added₁ ++ added₂, by rw [hcode₂, hcode₁, List.append_assoc], hspells₁.append hspells₂⟩

theorem Spells.none {added : List Instruction} (h : ∀ i ∈ added, skipped i)
    (hcode : d'.code.toList = d.code.toList ++ added) : d.Spells skipped spelled d' [] :=
  ⟨added, hcode, .none h⟩

theorem Spells.refl (d : Draft) : d.Spells skipped spelled d [] :=
  ⟨[], (List.append_nil _).symm, .nil⟩

variable (hframing : ∀ i : Instruction, i.IsFraming → skipped i)
include hframing

/-- Operations of no concern, whether or not control comes to them. -/
theorem spells_runOperations {operations : List Operation}
    (hops : ∀ op ∈ operations, skipped op.instruction)
    (hf : (d.runOperations operations).fault = none) :
    d.Spells skipped spelled (d.runOperations operations) [] := by
  refine runOperations_induction (R := fun d d' => d.Spells skipped spelled d' []) skipped
    Spells.refl (fun h k => h.trans k) (fun _ h _ _ hi => ?_) (hframing (.plain .pop2) trivial)
    hops hf
  refine .none (List.forall_mem_singleton.2 hi) ?_
  rw [h.code, Array.toList_push]

theorem spells_openRegion (d : Draft) : d.Spells skipped spelled d.openRegion [] := by
  refine .none (List.forall_mem_singleton.2 (hframing (.mark d.nextLabel) trivial)) ?_
  rw [openRegion_eq, Array.toList_push]

/-- The handlers of a region call for answers and for nothing else. -/
theorem spells_closeRegion {env : Env} {start : Label} {span : Span} {markers : List String}
    (hf : (d.closeRegion env start span markers).fault = none) :
    d.Spells skipped spelled (d.closeRegion env start span markers) [] := by
  by_cases hm : markers = []
  · simp only [Draft.closeRegion, hm, ↓reduceIte]
    exact .refl d
  · have hclosing : ∀ i ∈ closeCode env span markers d, i.IsFraming := forall_mem_closeCode
      (fun _ => trivial) (fun _ => trivial) (fun _ => trivial) (fun _ => List.mem_cons_self) trivial
    exact .none (fun i hi => hframing i (hclosing i hi))
      (closeRegion_closes env start span hm hf).code

theorem spells_settle {env : Env} {isLast : Bool} {base : Nat}
    (hf : (d.settle env isLast base).fault = none) :
    d.Spells skipped spelled (d.settle env isLast base) [] := by
  refine spells_runOperations hframing (fun op hop => hframing _ ?_) hf
  rcases mem_settling env hop with hop | rfl
  · simp only [nilOperations, List.mem_pair] at hop
    rcases hop with rfl | rfl
    · trivial
    · simp [Operation.instruction, Instruction.IsFraming, Instruction.CallsOnly]
  · trivial

end Draft

namespace Code.Spells

variable {env : Env} {c first second : Code}

/-- Operations that are carried out one by one. -/
theorem plain {operations : List Operation} (hplain : ∀ op ∈ operations, op.isPlain = true)
    (h : SmalltalkJvm.Spells skipped spelled (operations.map Operation.instruction) things) :
    (Code.operations operations).Spells skipped spelled env things :=
  fun _ hr hf => ⟨_, Draft.runOperations_isPlain hplain hr hf, h⟩

theorem append {before after : List σ} (hfirst : first.Spells skipped spelled env before)
    (hruns : first.Runs) (hsecond : second.Spells skipped spelled env after) :
    (first.append second).Spells skipped spelled env (before ++ after) := by
  intro d hr hf
  have hf₁ : (first.run env d).fault = none := fault_run env hf
  exact (hfirst d hr hf₁).trans (hsecond _ (readable_of_run env hruns hr hf₁).2 hf)

variable (hframing : ∀ i : Instruction, i.IsFraming → skipped i)
include hframing

theorem operations {operations : List Operation}
    (h : ∀ op ∈ operations, skipped op.instruction) :
    (Code.operations operations).Spells skipped spelled env [] :=
  fun _ _ hf => Draft.spells_runOperations hframing h hf

theorem line {operations : List Operation}
    (h : (Code.operations operations).Spells skipped spelled env things) (number : Nat) :
    (Code.operations (.line number :: operations)).Spells skipped spelled env things := by
  intro d hr hf
  have hf₁ : (d.step (Operation.line number).step).fault = none := Draft.fault_run hf
  have hr₁ := (Operation.readable_of_step hr hf₁).2 (by simp)
  have hline : skipped (Operation.line number).instruction := hframing (.line number) trivial
  exact (Draft.spells_runOperations hframing (List.forall_mem_singleton.2 hline) hf₁).trans
    (h _ hr₁ hf)

/-- Operations of no concern may also come behind a return. -/
theorem andOperations (hfirst : first.Spells skipped spelled env things)
    {operations : List Operation} (h : ∀ op ∈ operations, skipped op.instruction) :
    (first.append (.operations operations)).Spells skipped spelled env things := by
  intro d hr hf
  have hboth := (hfirst d hr (fault_run env hf)).trans (Draft.spells_runOperations hframing h hf)
  rwa [List.append_nil] at hboth

theorem region (h : c.Spells skipped spelled env things) (span : Span) :
    (Code.region span c).Spells skipped spelled env things := by
  intro d hr hf
  have hopened : d.openRegion.reachable = true := by rwa [Draft.openRegion_eq]
  have hbody := (Draft.spells_openRegion hframing d).trans
    (h _ hopened (Draft.fault_closeRegion env hf))
  have hall := hbody.trans (Draft.spells_closeRegion hframing hf)
  rwa [List.nil_append, List.append_nil] at hall

theorem statement (h : c.Spells skipped spelled env things) (isLast : Bool) :
    (Code.statement isLast c).Spells skipped spelled env things := by
  intro d hr hf
  have hall := (h d hr (Draft.fault_run hf)).trans (Draft.spells_settle hframing hf)
  rwa [List.append_nil] at hall

end Code.Spells

end

end SmalltalkJvm
