import SmalltalkJvm.Proofs.Reachability

/-! # What becomes of labels

What a step makes of the label that it concerns, and of every other: which stacks are known then,
and what a label has kept of its record. Whatever is known after a step was known before it, or is
the stack at the step, or is the exception that a handler starts with.
-/

namespace SmalltalkJvm.Draft

variable {d : Draft} {s : Step} {target label : Label} {stack : List VerificationType}
  {r : LabelRecord}

theorem stackAt?_modifyLabel {f : LabelRecord → LabelRecord}
    (h : (d.modifyLabel target f).stackAt? label = some stack) :
    d.stackAt? label = some stack ∨
      ∃ r, d.labels[label.index]? = some r ∧ (f r).stack = some stack ∧ target = label := by
  rw [stackAt?, labels_modifyLabel, Option.bind_map] at h
  obtain ⟨r, hr, hstack⟩ := Option.bind_eq_some_iff.1 h
  simp only [Function.comp_apply] at hstack
  split_ifs at hstack with htarget
  · exact .inr ⟨r, hr, hstack, htarget⟩
  · exact .inl (Option.bind_eq_some_iff.2 ⟨r, hr, hstack⟩)

/-- Placing a label tells its stack, if control comes there. -/
theorem stackAt?_mark (h : (d.mark target).stackAt? label = some stack) :
    d.stackAt? label = some stack ∨ d.reachable = true ∧ stack = d.stack.entries := by
  rw [stackAt?, labels_mark, Option.bind_map] at h
  obtain ⟨r, hr, hstack⟩ := Option.bind_eq_some_iff.1 h
  simp only [Function.comp_apply] at hstack
  split_ifs at hstack with htarget hreach
  · exact .inr ⟨hreach, (Option.some.inj hstack).symm⟩
  · exact .inl (Option.bind_eq_some_iff.2 ⟨r, hr, hstack⟩)
  · exact .inl (Option.bind_eq_some_iff.2 ⟨r, hr, hstack⟩)

/-- A branch tells the stack of its target, unless it is known. -/
theorem stackAt?_goto (h : (d.goto target).stackAt? label = some stack) :
    d.stackAt? label = some stack ∨ stack = d.stack.entries := by
  unfold goto at h
  split_ifs at h
  · refine (stackAt?_modifyLabel h).elim .inl ?_
    rintro ⟨r, hr, hstack, -⟩
    cases hold : r.stack with
    | none =>
      rw [hold] at hstack
      exact .inr (Option.some.inj hstack).symm
    | some old =>
      rw [hold] at hstack
      cases hstack
      exact .inl (Option.bind_eq_some_iff.2 ⟨r, hr, hold⟩)
  · exact .inl h

theorem stackAt?_step (hf : (d.step s).fault = none)
    (h : (d.step s).stackAt? label = some stack) :
    d.stackAt? label = some stack ∨ stack = d.stack.entries ∨
      ∃ exception, s = .markHandler label exception ∧ label.index < d.labels.size ∧
        stack = [.object exception] := by
  cases s with
  | label =>
    simp only [stackAt?, step, addLabel, Array.getElem?_push] at h
    split_ifs at h
    · cases h
    · exact .inl h
  | mark target => exact (stackAt?_mark h).imp_right fun hnew => .inl hnew.2
  | markHandler target exception =>
    rcases stackAt?_mark h with hcaught | ⟨hr, -⟩
    · refine (stackAt?_modifyLabel hcaught).imp_right ?_
      rintro ⟨r, hr, hexception, rfl⟩
      cases hexception
      exact .inr ⟨exception, rfl, (Array.getElem?_eq_some_iff.1 hr).1, rfl⟩
    · cases hr
  | goto target => exact (stackAt?_goto h).imp_right .inl
  | protect entry => exact .inl h
  | _ =>
    rcases step_straight rfl hf with hsame | ⟨-, i, -, hperforms⟩
    · rw [hsame] at h
      exact .inl h
    · rw [stackAt?, hperforms.labels] at h
      exact .inl h

/-- Where a label is placed, control goes on with the stack there or with the one that is known. -/
theorem entries_mark (d : Draft) (label : Label) :
    (d.mark label).stack.entries = d.stack.entries ∨
      d.stackAt? label = some (d.mark label).stack.entries := by
  cases hr : d.reachable with
  | true =>
    rw [mark_of_reachable hr]
    exact .inl rfl
  | false =>
    rw [mark_of_unreachable hr]
    cases hstack : d.stackAt? label with
    | none => exact .inl rfl
    | some stack => exact .inr rfl

theorem entries_step (hs : s.concernsLabels = true) :
    (d.step s).stack.entries = d.stack.entries ∨
      (∃ label, d.stackAt? label = some (d.step s).stack.entries) ∨
      ∃ exception, (d.step s).stack.entries = [.object exception] := by
  cases s with
  | mark label => exact (d.entries_mark label).imp_right fun h => .inl ⟨label, h⟩
  | markHandler label exception =>
    refine (entries_mark _ label).imp_right fun h => ?_
    rcases stackAt?_modifyLabel h with hold | ⟨r, -, hexception, -⟩
    · exact .inl ⟨label, hold⟩
    · exact .inr ⟨exception, (Option.some.inj hexception).symm⟩
  | goto target =>
    simp only [step, goto]
    split_ifs <;> exact .inl rfl
  | label | protect => exact .inl rfl
  | _ => cases hs

/-- A label that has a frame is a target whose stack is known. -/
theorem exists_record_of_frame? (h : d.frame? label = some stack) :
    ∃ r, d.labels[label.index]? = some r ∧ r.targeted = true ∧ r.stack = some stack := by
  obtain ⟨r, hr, hframe⟩ := Option.bind_eq_some_iff.1 h
  rw [LabelRecord.frame?] at hframe
  split_ifs at hframe with htargeted
  exact ⟨r, hr, htargeted, hframe⟩

/-- What a step may make of the record of a label. -/
structure Becomes (s : Step) (label : Label) (r r' : LabelRecord) : Prop where
  targeted : r.targeted = true → r'.targeted = true
  placed : r'.placed = true → r.placed = true ∨ s.placed? = some label
  stack : s.placed? ≠ some label → ∀ stack, r.stack = some stack → r'.stack = some stack

theorem Becomes.refl (s : Step) (label : Label) (r : LabelRecord) : Becomes s label r r :=
  ⟨id, .inl, fun _ _ h => h⟩

theorem becomes_step (hf : (d.step s).fault = none) (hr : d.labels[label.index]? = some r) :
    ∃ r', (d.step s).labels[label.index]? = some r' ∧ Becomes s label r r' := by
  cases s with
  | label =>
    refine ⟨r, ?_, .refl _ _ r⟩
    rw [step, addLabel, Array.getElem?_push,
      if_neg (Nat.ne_of_lt (Array.getElem?_eq_some_iff.1 hr).1)]
    exact hr
  | mark target =>
    rw [step, labels_mark, hr, Option.map_some]
    refine ⟨_, rfl, ?_⟩
    by_cases htarget : target = label
    · subst htarget
      rw [if_pos rfl]
      exact ⟨id, fun _ => .inr rfl, fun h => absurd rfl h⟩
    · rw [if_neg htarget]
      exact .refl _ _ r
  | markHandler target exception =>
    rw [step, markHandler, labels_mark]
    change ∃ r', ((d.modifyLabel target _).labels[label.index]?).map _ = some r' ∧ _
    rw [labels_modifyLabel, hr, Option.map_some, Option.map_some]
    refine ⟨_, rfl, ?_⟩
    by_cases htarget : target = label
    · subst htarget
      rw [if_pos rfl, if_pos rfl]
      exact ⟨fun _ => rfl, fun _ => .inr rfl, fun h => absurd rfl h⟩
    · rw [if_neg htarget, if_neg htarget]
      exact .refl _ _ r
  | goto target =>
    simp only [step, goto]
    split_ifs
    · change ∃ r', (d.modifyLabel target _).labels[label.index]? = some r' ∧ _
      rw [labels_modifyLabel, hr, Option.map_some]
      refine ⟨_, rfl, ?_⟩
      split_ifs
      · exact ⟨fun _ => rfl, .inl, fun _ stack hstack => by rw [hstack]; rfl⟩
      · exact .refl _ _ r
    · exact ⟨r, hr, .refl _ _ r⟩
  | protect entry => exact ⟨r, hr, .refl _ _ r⟩
  | _ =>
    rcases step_straight rfl hf with hsame | ⟨-, i, -, hperforms⟩
    · exact ⟨r, by rwa [hsame], .refl _ _ r⟩
    · exact ⟨r, by rwa [hperforms.labels], .refl _ _ r⟩

/-- A label that is placed was so before, or the step places it. -/
theorem isPlaced_step (hf : (d.step s).fault = none) (h : (d.step s).isPlaced label = true) :
    d.isPlaced label = true ∨ s.placed? = some label := by
  cases hr : d.labels[label.index]? with
  | some r =>
    obtain ⟨r', hr', hbecomes⟩ := becomes_step hf hr
    rw [isPlaced, hr'] at h
    rw [isPlaced, hr]
    exact hbecomes.placed h
  | none =>
    -- A label that was not there has just been made.
    have hsize := size_step hf
    have hnone := Array.getElem?_eq_none_iff.1 hr
    cases hr' : (d.step s).labels[label.index]? with
    | none =>
      rw [isPlaced, hr'] at h
      cases h
    | some r' =>
      have hlt := (Array.getElem?_eq_some_iff.1 hr').1
      split_ifs at hsize with hlabel
      · subst hlabel
        rw [step, addLabel, Array.getElem?_push, if_pos (by omega)] at hr'
        cases hr'
        rw [isPlaced, step, addLabel, Array.getElem?_push, if_pos (by omega)] at h
        cases h
      · omega

end SmalltalkJvm.Draft
