import Mathlib.Tactic.Linarith
import SmalltalkJvm.Proofs.Development
import SmalltalkJvm.Proofs.Limits

/-! # What the code pays for

The bytes of a method's code are counted when it is written; its exception entries, its frames and
what stands on its stack are not. Each of them is paid for by code: an entry by the call and the
return of its handler, a frame by its handler or by the branch to it, and an entry of the stack by
the instruction that pushes it. So the tables of a method are never longer than its code, and the
stacks in all its frames together have at most a seventh of the square of its length.
-/

namespace SmalltalkJvm

def Instruction.leastSize : Instruction → Nat
  | plain _ | slot .. => 1
  | push .. | constant _ => 2
  | classRef .. | field .. | invoke .. | jump .. => 3
  | dynamic _ => 5
  | mark _ | line _ => 0

def leastSize (code : List Instruction) : Nat := (code.map Instruction.leastSize).sum

@[simp] theorem leastSize_nil : leastSize [] = 0 := rfl

@[simp] theorem leastSize_cons (i : Instruction) (code : List Instruction) :
    leastSize (i :: code) = i.leastSize + leastSize code := by simp [leastSize]

@[simp] theorem leastSize_append (code code' : List Instruction) :
    leastSize (code ++ code') = leastSize code + leastSize code' := by simp [leastSize]

namespace Instruction

variable {R : Operand → Nat → Prop} {i : Instruction} {k : Linked}

theorem LinksTo.leastSize_le (h : i.LinksTo R k) : i.leastSize ≤ k.size := by
  cases i with
  | plain op | jump op target | mark label | line number =>
    cases h
    exact Nat.le_refl _
  | push op value | slot op index =>
    cases h
    simp only [leastSize, Linked.size]
    split_ifs <;> decide
  | constant value =>
    obtain ⟨n, -, rfl⟩ := h
    simp only [leastSize, Linked.size]
    split_ifs <;> decide
  | classRef op name | field op name | dynamic site =>
    obtain ⟨n, -, rfl⟩ := h
    exact Nat.le_refl _
  | invoke op member =>
    obtain ⟨-, n, -, rfl⟩ | ⟨-, n, -, rfl⟩ := h <;> simp [leastSize, Linked.size]

theorem leastSize_le_codeSize {code : List Instruction} {linked : List Linked}
    (h : List.Forall₂ (LinksTo R) code linked) : SmalltalkJvm.leastSize code ≤ codeSize linked := by
  induction h with
  | nil => exact Nat.le_refl 0
  | cons hik _ ih =>
    rw [leastSize_cons, codeSize_cons]
    exact Nat.add_le_add hik.leastSize_le ih

/-- An instruction without operands pushes one entry more than it takes, at most. -/
theorem length_plain? {f f' : Flow} {op : Opcode} (h : f.plain? op = some f') :
    f'.stack.length ≤ f.stack.length + 1 := by
  cases op <;> simp only [Flow.plain?, reduceCtorEq, Option.some.injEq] at h
  case pop | areturn | athrow =>
    have := Flow.length_drop? h
    omega
  case pop2 =>
    split at h
    · split_ifs at h <;> have := Flow.length_drop? h <;> omega
    · cases h
  case dup | dupX1 | swap =>
    split at h
    · rename_i hstack
      cases h
      simp [hstack, Flow.push]
    · cases h
  all_goals
    subst h
    simp [Flow.push]

/-- No instruction pushes more entries than it has bytes. -/
theorem length_effect? {this : Option String} {place : Nat} {f f' : Flow}
    (h : i.effect? this place f = some f') :
    f'.stack.length ≤ f.stack.length + i.leastSize := by
  unfold effect? at h
  split at h
  case h_1 => exact length_plain? h
  case h_5 | h_8 =>
    obtain ⟨t, -, rfl⟩ := Option.map_eq_some_iff.1 h
    simp [Flow.push, leastSize]
  case h_6 =>
    split at h <;> cases h
    simp_all [Flow.assign, leastSize]
    omega
  case h_9 =>
    obtain ⟨d, f₁, f₂, -, hdrop, hreceive, rfl⟩ := effect?_invoke place h
    have := Flow.length_drop? hdrop
    have := Flow.length_receive? hreceive
    rw [Flow.length_pushResult, leastSize]
    split_ifs <;> omega
  case h_10 =>
    obtain ⟨descriptor, -, h⟩ := Option.bind_eq_some_iff.1 h
    obtain ⟨f₁, hdrop, rfl⟩ := Option.map_eq_some_iff.1 h
    have := Flow.length_drop? hdrop
    rw [Flow.length_pushResult, leastSize]
    split_ifs <;> omega
  all_goals
    cases h
    try simp [Flow.push, leastSize]

end Instruction

def LabelRecord.frameAt (r : LabelRecord) (n : Nat) : Option Frame :=
  if r.targeted then r.stack.map fun stack => ⟨⟨n⟩, stack.reverse⟩ else none

namespace Draft

variable {env : Env}

/-- New labels leave the frames as they are. -/
theorem frames_append {d d' : Draft} {records : List LabelRecord}
    (h : d'.labels.toList = d.labels.toList ++ records) :
    d'.frames = d.frames ++
      (records.zipIdx d.labels.size).filterMap fun x => x.1.frameAt x.2 := by
  rw [frames, h, List.zipIdx_append, List.filterMap_append, Nat.zero_add, Array.length_toList]
  rfl

theorem frames_openRegion (d : Draft) : d.openRegion.frames = d.frames := by
  rw [frames_append (d := d) (by rw [openRegion_eq, Array.toList_push])]
  simp [LabelRecord.frameAt]

theorem getElem?_handlerLabels (first : Nat) (markers : List String) (k : Nat) :
    (handlerLabels first markers)[k]? = markers[k]?.map fun marker => (⟨first + k⟩, marker) := by
  induction markers generalizing first k with
  | nil => rfl
  | cons marker markers ih =>
    cases k with
    | zero => rfl
    | succ k => simp [handlerLabels, ih, Nat.add_assoc, Nat.add_comm 1]

theorem frames_handlerLabels (first : Nat) (markers : List String) :
    (((handlerLabels first markers).map fun x =>
        (⟨some [.object x.2], true, true⟩ : LabelRecord)).zipIdx first).filterMap
      (fun x => x.1.frameAt x.2) =
      (handlerLabels first markers).map fun x => ⟨x.1, [.object x.2]⟩ := by
  induction markers generalizing first with
  | nil => rfl
  | cons marker markers ih =>
    simp only [handlerLabels, List.map_cons, List.zipIdx_cons, List.filterMap_cons, ih]
    rfl

section

variable {start : Label} {span : Span} {markers : List String} {d d' : Draft}

/-- The labels that the end of a region makes. -/
theorem Closes.labels_eq (h : Closes env start span markers d d') :
    d'.labels.toList = d.labels.toList ++ ⟨d.arriving, true, false⟩ ::
      ⟨d.arriving, true, d.reachable⟩ ::
        (handlerLabels (d.labels.size + 2) markers).map fun x =>
          ⟨some [.object x.2], true, true⟩ := by
  apply List.ext_getElem?
  intro i
  rw [Array.getElem?_toList]
  by_cases hold : i < d.labels.size
  · rw [h.others i hold, List.getElem?_append_left (by simpa using hold), Array.getElem?_toList]
  obtain ⟨k, rfl⟩ := Nat.exists_eq_add_of_le (Nat.not_lt.1 hold)
  rw [List.getElem?_append_right (by simp), Array.length_toList, Nat.add_sub_cancel_left]
  match k with
  | 0 => exact h.stop
  | 1 => exact h.after
  | k + 2 =>
    simp only [List.getElem?_cons_succ, List.getElem?_map]
    cases hx : (handlerLabels (d.labels.size + 2) markers)[k]? with
    | none =>
      rw [List.getElem?_eq_none_iff, length_handlerLabels] at hx
      have hsize := h.size
      exact Array.getElem?_eq_none (by omega)
    | some x =>
      have hrecord := h.records x (List.mem_of_getElem? hx)
      rw [getElem?_handlerLabels] at hx
      obtain ⟨marker, -, rfl⟩ := Option.map_eq_some_iff.1 hx
      rw [← Nat.add_assoc, Nat.add_right_comm]
      exact hrecord

/-- The frames that the end of a region makes: one behind the handlers, where control comes to, and
one for each of them. -/
theorem Closes.frames_eq (h : Closes env start span markers d d') :
    d'.frames = d.frames ++
      ((if d.reachable then [⟨⟨d.labels.size + 1⟩, d.stack.entries.reverse⟩] else []) ++
        (handlerLabels (d.labels.size + 2) markers).map fun x => ⟨x.1, [.object x.2]⟩) := by
  rw [frames_append h.labels_eq, ← frames_handlerLabels]
  cases hr : d.reachable <;> simp [LabelRecord.frameAt, arriving, hr]

theorem leastSize_handlerCode (lines : Bool) (x : Label × String) :
    leastSize (handlerCode env lines span x) = 4 := by
  cases lines <;> rfl

theorem leastSize_closeCode :
    leastSize (closeCode env span markers d) =
      (if d.reachable then 3 else 0) + 4 * markers.length := by
  have hhandlers (handlers : List (Label × String)) :
      leastSize (handlers.flatMap (handlerCode env d.recordsLines span)) = 4 * handlers.length := by
    induction handlers with
    | nil => rfl
    | cons x handlers ih =>
      rw [List.flatMap_cons, leastSize_append, leastSize_handlerCode, ih, List.length_cons]
      omega
  rw [closeCode, leastSize_cons, leastSize_append, leastSize_append, hhandlers,
    length_handlerLabels]
  cases d.reachable <;> simp [Instruction.leastSize]

end

/-- The bytes that a draft's code takes at least. -/
def paid (d : Draft) : Nat := leastSize d.code.toList

structure Affords (d : Draft) : Prop where
  handlers : 4 * d.handlers.size ≤ d.paid
  frames : 3 * d.frames.length ≤ d.paid
  depth (hr : d.reachable = true) : d.stack.entries.length ≤ d.paid
  each : ∀ f ∈ d.frames, f.stack.length ≤ d.paid
  total : 7 * (d.frames.map fun f => f.stack.length).sum ≤ d.paid ^ 2

theorem IsBlank.affords {d : Draft} (h : d.IsBlank) : d.Affords := by
  have hframes : d.frames = [] := by rw [Draft.frames, h.labels]; rfl
  refine ⟨?_, ?_, fun _ => ?_, ?_, ?_⟩
  · simp [h.handlers]
  · simp [hframes]
  · simp [h.stack]
  · simp [hframes]
  · simp [hframes]

theorem Affords.performs {d d' : Draft} {i : Instruction} (h : d.Affords) (hr : d.reachable = true)
    (hperforms : d.Performs i d') : d'.Affords := by
  have hpaid : d'.paid = d.paid + i.leastSize := by
    simp [paid, hperforms.code]
  have hle : d.paid ≤ d'.paid := hpaid ▸ Nat.le_add_right _ _
  have hframes : d'.frames = d.frames := by rw [Draft.frames, hperforms.labels]; rfl
  refine ⟨?_, ?_, fun _ => ?_, ?_, ?_⟩
  · rw [hperforms.handlers]
    exact h.handlers.trans hle
  · rw [hframes]
    exact h.frames.trans hle
  · have hlength := Instruction.length_effect? hperforms.effect
    have hdepth := h.depth hr
    simp only [flow] at hlength
    omega
  · rw [hframes]
    exact fun f hf => (h.each f hf).trans hle
  · rw [hframes]
    exact h.total.trans (Nat.pow_le_pow_left hle 2)

theorem Affords.openRegion {d : Draft} (h : d.Affords) : d.openRegion.Affords := by
  have hframes := frames_openRegion d
  have hpaid : d.openRegion.paid = d.paid := by
    simp [paid, openRegion_eq, Instruction.leastSize]
  refine ⟨?_, ?_, ?_, ?_, ?_⟩
  · rw [hpaid, openRegion_eq]
    exact h.handlers
  · rw [hpaid, hframes]
    exact h.frames
  · rw [hpaid, openRegion_eq]
    exact h.depth
  · rw [hpaid, hframes]
    exact h.each
  · rw [hpaid, hframes]
    exact h.total

theorem Affords.closes {d d' : Draft} {start : Label} {span : Span} {markers : List String}
    (h : d.Affords) (hm : markers ≠ []) (hcloses : Closes env start span markers d d') :
    d'.Affords := by
  have hpaid : d'.paid = d.paid + ((if d.reachable then 3 else 0) + 4 * markers.length) := by
    rw [paid, hcloses.code, leastSize_append, ← closeCode, leastSize_closeCode]
    rfl
  have hpos : 0 < markers.length := List.length_pos_iff.2 hm
  have hlength := length_handlerLabels (d.labels.size + 2) markers
  have hframes := hcloses.frames_eq
  refine ⟨?_, ?_, fun hr => ?_, ?_, ?_⟩
  · have hentries := congrArg List.length hcloses.entries
    simp only [Array.length_toList, List.length_append, regionEntries, List.length_map,
      hlength] at hentries
    have := h.handlers
    omega
  · have := h.frames
    rw [hframes, hpaid, List.length_append, List.length_append, List.length_map, hlength]
    split_ifs <;> simp <;> omega
  · rw [hcloses.reachable] at hr
    have hflow := congrArg (fun f => f.stack.length) (hcloses.flow hr)
    have := h.depth hr
    simp only [flow] at hflow
    omega
  · intro f hf
    rw [hframes] at hf
    simp only [List.mem_append, List.mem_map] at hf
    rcases hf with hf | hf | ⟨x, -, rfl⟩
    · have := h.each f hf
      omega
    · split_ifs at hf with hr
      · have := h.depth hr
        rw [List.mem_singleton.1 hf, List.length_reverse]
        omega
      · cases hf
    · simp only [List.length_singleton]
      omega
  · have hones : ((handlerLabels (d.labels.size + 2) markers).map fun x =>
        ([.object x.2] : List VerificationType).length).sum = markers.length := by
      simp [hlength]
    have htotal := h.total
    rw [hframes, hpaid]
    simp only [List.map_append, List.sum_append, List.map_map, Function.comp_def, hones]
    split_ifs with hr
    · have := h.depth hr
      simp only [List.map_cons, List.map_nil, List.sum_cons, List.sum_nil, List.length_reverse]
      nlinarith
    · simp only [List.map_nil, List.sum_nil]
      nlinarith

theorem Develops.affords {P : Instruction → Prop} {start d : Draft} (h : start.Develops env P d)
    (hstart : start.Affords) : d.Affords := by
  induction h with
  | refl => exact hstart
  | performs _ hr _ _ hperforms ih => exact ih.performs hr hperforms
  | opens _ ih => exact ih.openRegion
  | closes _ hm hcloses ih => exact ih.closes hm hcloses

end Draft

structure MethodBody.Affordable (b : MethodBody) : Prop where
  handlers : 4 * b.handlers.length ≤ leastSize b.instructions
  frames : 3 * b.frames.length ≤ leastSize b.instructions
  each : ∀ f ∈ b.frames, f.stack.length ≤ leastSize b.instructions
  total : 7 * (b.frames.map fun f => f.stack.length).sum ≤ leastSize b.instructions ^ 2
  locals : b.locals.length ≤ 3

theorem MethodBody.Develops.affordable {env : Env} {P : Instruction → Prop} {b : MethodBody}
    (h : b.Develops env P) :
    b.Affordable := by
  obtain ⟨start, d, hstart, hdevelops, hfinishes⟩ := h
  have haffords := hdevelops.affords hstart.affords
  have hpaid : leastSize b.instructions = d.paid := by rw [hfinishes.instructions]; rfl
  have hentry : d.entryLocals = start.entryLocals := by
    clear hfinishes haffords hpaid
    induction hdevelops with
    | refl => rfl
    | performs _ _ _ _ hperforms ih => exact hperforms.entryLocals.trans ih
    | opens _ ih => rw [Draft.openRegion_eq]; exact ih
    | closes _ _ hcloses ih => exact hcloses.entryLocals.trans ih
  refine ⟨?_, ?_, ?_, ?_, ?_⟩
  · rw [hfinishes.handlers, Array.length_toList, hpaid]
    exact haffords.handlers
  · rw [hfinishes.frames, hpaid]
    exact haffords.frames
  · rw [hfinishes.frames, hpaid]
    exact haffords.each
  · rw [hfinishes.frames, hpaid]
    exact haffords.total
  · rw [hfinishes.locals, hentry]
    exact hstart.locals

end SmalltalkJvm
