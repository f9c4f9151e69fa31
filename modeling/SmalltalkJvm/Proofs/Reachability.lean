import SmalltalkJvm.Proofs.StepSequences

/-! # Code that can be reached

Behind an instruction that ends the flow, a draft drops every step until control comes back at a
label. The stack there is known, and as no label is placed twice, it is known from a branch or
because a handler starts there. Such a label has a frame.

So a finished body has no code that is neither run on to nor framed, whatever steps it was built by.
-/

namespace SmalltalkJvm

/-- Code that control runs through, with whether it is there at the start and at the end. Behind an
instruction that ends the flow it is not, until a label that has a frame. -/
inductive Resumes (framed : Label → Prop) : Bool → List Instruction → Bool → Prop where
  | nil (live : Bool) : Resumes framed live [] live
  | passed {live live' : Bool} {label : Label} {code : List Instruction}
      (rest : Resumes framed live code live') : Resumes framed live (.mark label :: code) live'
  | entered {live live' : Bool} {label : Label} {code : List Instruction} (h : framed label)
      (rest : Resumes framed true code live') : Resumes framed live (.mark label :: code) live'
  | runs {live' : Bool} {i : Instruction} {code : List Instruction}
      (hi : ∀ label, i ≠ .mark label) (rest : Resumes framed (!i.endsFlow) code live') :
      Resumes framed true (i :: code) live'

namespace Resumes

variable {framed framed' : Label → Prop} {live live' live'' : Bool}
  {first second code : List Instruction}

theorem append (h₁ : Resumes framed live first live') (h₂ : Resumes framed live' second live'') :
    Resumes framed live (first ++ second) live'' := by
  induction h₁ with
  | nil live => exact h₂
  | passed _ ih => exact .passed (ih h₂)
  | entered h _ ih => exact .entered h (ih h₂)
  | runs hi _ ih => exact .runs hi (ih h₂)

theorem mono (h : Resumes framed live code live') (hle : ∀ label, framed label → framed' label) :
    Resumes framed' live code live' := by
  induction h with
  | nil live => exact .nil live
  | passed _ ih => exact .passed ih
  | entered h _ ih => exact .entered (hle _ h) ih
  | runs hi _ ih => exact .runs hi ih

/-- Control is gone behind an instruction that ends the flow. -/
theorem split {i : Instruction} (h : Resumes framed live (first ++ i :: second) live')
    (hi : i.endsFlow = true) : Resumes framed false second live' := by
  induction first generalizing live with
  | nil =>
    cases h with
    | passed _ => cases hi
    | entered _ _ => cases hi
    | runs _ rest => rwa [hi] at rest
  | cons j first ih =>
    cases h with
    | passed rest => exact ih rest
    | entered _ rest => exact ih rest
    | runs _ rest => exact ih rest

/-- Where control is gone, only labels stand up to one that has a frame. -/
theorem exists_framed {j : Instruction} (h : Resumes framed false (first ++ j :: second) live')
    (hj : j.isCode = true) : ∃ dead label rest, first = dead ++ .mark label :: rest ∧
      framed label ∧ ∀ k ∈ dead, ∃ other, k = .mark other := by
  induction first with
  | nil =>
    cases h with
    | passed _ => cases hj
    | entered _ _ => cases hj
  | cons k first ih =>
    cases h with
    | @passed _ _ label _ rest =>
      obtain ⟨dead, framedLabel, after, rfl, hframed, hdead⟩ := ih rest
      exact ⟨.mark label :: dead, framedLabel, after, rfl, hframed,
        List.forall_mem_cons.2 ⟨⟨label, rfl⟩, hdead⟩⟩
    | @entered _ _ label _ hframed rest => exact ⟨[], label, first, rfl, hframed, by simp⟩

/-- Code that control does not run out of ends with an instruction that ends the flow, if there is
any and control was there at all. -/
theorem ends (h : Resumes framed live code false) :
    (live = false ∧ code.filter Instruction.isCode = []) ∨
      ∃ i, (code.filter Instruction.isCode).getLast? = some i ∧ i.endsFlow = true := by
  induction code generalizing live with
  | nil =>
    cases h
    exact .inl ⟨rfl, rfl⟩
  | cons i code ih =>
    cases h with
    | passed rest => exact ih rest
    | entered _ rest => exact .inr ((ih rest).resolve_left fun h => Bool.noConfusion h.1)
    | runs hi rest =>
      refine .inr ?_
      rcases ih rest with ⟨hends, hnone⟩ | ⟨last, hlast, hends⟩
      · have hends : i.endsFlow = true := by simpa using hends
        have hcode : i.isCode = true := by
          cases i with
          | mark label => cases hends
          | line number => cases hends
          | _ => rfl
        exact ⟨i, by rw [List.filter_cons_of_pos hcode, hnone]; rfl, hends⟩
      · refine ⟨last, ?_, hends⟩
        rw [List.filter_cons]
        split_ifs
        · rw [List.getLast?_cons, hlast]
          rfl
        · exact hlast

end Resumes

namespace Draft

variable {d d' : Draft} {placed placed' : List Label}

def IsFramed (d : Draft) (label : Label) : Prop :=
  ∃ r, d.labels[label.index]? = some r ∧ r.targeted = true ∧ r.stack.isSome = true

/-- A stack that a draft knows comes from a branch or a handler, unless its label is placed. -/
def Known (d : Draft) (placed : List Label) : Prop :=
  ∀ label r, d.labels[label.index]? = some r → r.stack.isSome = true →
    r.targeted = true ∨ label ∈ placed

structure Tracks (d : Draft) (placed : List Label) : Prop where
  code : Resumes d.IsFramed true d.code.toList d.reachable
  known : d.Known placed

theorem IsNew.tracks (h : d.IsNew) : d.Tracks [] := by
  have hlabels := h.labels
  have hcode : d.code = #[] ∧ d.reachable = true := by cases h <;> exact ⟨rfl, rfl⟩
  refine ⟨?_, fun label r hr => ?_⟩
  · rw [hcode.1, hcode.2]
    exact .nil true
  · simp [hlabels] at hr

theorem Tracks.extend (h : d.Tracks placed) (added : List Instruction)
    (hcode : d'.code.toList = d.code.toList ++ added)
    (hframed : ∀ label, d.IsFramed label → d'.IsFramed label)
    (hadded : Resumes d'.IsFramed d.reachable added d'.reachable) (hknown : d'.Known placed') :
    d'.Tracks placed' := by
  refine ⟨?_, hknown⟩
  rw [hcode]
  exact (h.code.mono hframed).append hadded

theorem label_ext {first second : Label} (h : first.index = second.index) : first = second := by
  cases first
  cases h
  rfl

theorem labels_modifyLabel (d : Draft) (target label : Label) (f : LabelRecord → LabelRecord) :
    (d.modifyLabel target f).labels[label.index]? =
      d.labels[label.index]?.map fun r => if target = label then f r else r := by
  by_cases htarget : target = label
  · subst htarget
    simp [modifyLabel, Array.getElem?_modify]
  · have hindex : target.index ≠ label.index := fun h => htarget (label_ext h)
    simp [modifyLabel, Array.getElem?_modify, hindex, htarget]

theorem labels_mark (d : Draft) (target label : Label) :
    (d.mark target).labels[label.index]? = d.labels[label.index]?.map fun r =>
      if target = label then
        { r with stack := if d.reachable then some d.stack.entries else r.stack, placed := true }
      else r := by
  have hmark : (d.mark target).labels = ((d.meet target).modifyLabel target fun r =>
      { r with placed := true }).labels := rfl
  have hmeet : (d.meet target).labels[label.index]? = d.labels[label.index]?.map fun r =>
      if target = label then
        { r with stack := if d.reachable then some d.stack.entries else r.stack } else r := by
    unfold meet
    cases hr : d.reachable with
    | true => simp [labels_modifyLabel]
    | false =>
      simp only [Bool.false_eq_true, ↓reduceIte, ite_self, Option.map_id']
      split <;> rfl
  rw [hmark, labels_modifyLabel, hmeet, Option.map_map]
  congr 1
  funext r
  by_cases htarget : target = label <;> simp [htarget]

theorem reachable_mark (d : Draft) (label : Label) :
    (d.mark label).reachable = (d.reachable || (d.stackAt? label).isSome) := by
  change (d.meet label).reachable = _
  unfold meet
  cases hr : d.reachable with
  | true => simp [hr, modifyLabel]
  | false =>
    cases hstack : d.stackAt? label with
    | none => simp [hr]
    | some stack => simp

theorem IsFramed.modifyLabel {label : Label} (h : d.IsFramed label) {target : Label}
    {f : LabelRecord → LabelRecord}
    (hf : ∀ r, r.targeted = true → r.stack.isSome = true →
      (f r).targeted = true ∧ (f r).stack.isSome = true) :
    (d.modifyLabel target f).IsFramed label := by
  obtain ⟨r, hr, htargeted, hstack⟩ := h
  refine ⟨if target = label then f r else r, by rw [labels_modifyLabel, hr]; rfl, ?_⟩
  split_ifs
  · exact hf r htargeted hstack
  · exact ⟨htargeted, hstack⟩

theorem IsFramed.mark {label : Label} (h : d.IsFramed label) (target : Label) :
    (d.mark target).IsFramed label := by
  obtain ⟨r, hr, htargeted, hstack⟩ := h
  refine ⟨_, by rw [labels_mark, hr]; rfl, ?_⟩
  split_ifs <;> simp [htargeted, hstack]

/-- Control comes back only at a label that has a frame. -/
theorem Known.isFramed (h : d.Known placed) {label : Label} (hlabel : label ∉ placed)
    (hstack : (d.stackAt? label).isSome = true) : d.IsFramed label := by
  obtain ⟨stack, hstack⟩ := Option.isSome_iff_exists.1 hstack
  obtain ⟨r, hr, hstack⟩ := Option.bind_eq_some_iff.1 hstack
  have hsome : r.stack.isSome = true := by rw [hstack]; rfl
  exact ⟨r, hr, (h label r hr hsome).resolve_right hlabel, hsome⟩

theorem Known.mark (h : d.Known placed) (target : Label) :
    (d.mark target).Known (target :: placed) := by
  intro label r' hr' hstack
  rw [labels_mark] at hr'
  obtain ⟨r, hr, rfl⟩ := Option.map_eq_some_iff.1 hr'
  by_cases htarget : target = label
  · exact .inr (by simp [htarget])
  · rw [if_neg htarget] at hstack ⊢
    exact (h label r hr hstack).imp_right (List.mem_cons_of_mem target)

theorem Tracks.mark (h : d.Tracks placed) {label : Label} (hlabel : label ∉ placed) :
    (d.mark label).Tracks (label :: placed) := by
  refine h.extend [.mark label] (by simp [code_mark]) (fun _ hframed => hframed.mark label) ?_
    (h.known.mark label)
  rw [reachable_mark]
  cases hr : d.reachable with
  | true => exact .passed (.nil true)
  | false =>
    cases hstack : (d.stackAt? label).isSome with
    | false => exact .passed (.nil false)
    | true => exact .entered ((h.known.isFramed hlabel hstack).mark label) (.nil true)

theorem Known.modifyLabel (h : d.Known placed) (target : Label) {f : LabelRecord → LabelRecord}
    (hf : ∀ r, (f r).targeted = true) : (d.modifyLabel target f).Known placed := by
  intro label r' hr' hstack
  rw [labels_modifyLabel] at hr'
  obtain ⟨r, hr, rfl⟩ := Option.map_eq_some_iff.1 hr'
  by_cases htarget : target = label
  · rw [if_pos htarget]
    exact .inl (hf r)
  · rw [if_neg htarget] at hstack ⊢
    exact h label r hr hstack

/-- A handler is entered even where control runs on to it. -/
theorem Tracks.markHandler (h : d.Tracks placed) {label : Label}
    (hmade : label.index < d.labels.size) (exception : String) :
    (d.markHandler label exception).Tracks (label :: placed) := by
  obtain ⟨caught, hcaught⟩ : ∃ d₁ : Draft, d₁ = { d.modifyLabel label fun r =>
    { r with stack := some [.object exception], targeted := true } with reachable := false } :=
    ⟨_, rfl⟩
  have hmark : d.markHandler label exception = caught.mark label := by rw [hcaught]; rfl
  have hframed {other : Label} (hother : d.IsFramed other) : caught.IsFramed other := by
    rw [hcaught]
    exact hother.modifyLabel fun _ _ _ => ⟨rfl, rfl⟩
  have hentry : caught.IsFramed label := by
    have hrecord := labels_modifyLabel d label label fun r =>
      { r with stack := some [.object exception], targeted := true }
    rw [Array.getElem?_eq_getElem hmade, Option.map_some, if_pos rfl] at hrecord
    rw [hcaught]
    exact ⟨_, hrecord, rfl, rfl⟩
  have hknown : caught.Known placed := by
    rw [hcaught]
    exact h.known.modifyLabel label fun _ => rfl
  rw [hmark]
  refine h.extend [.mark label] ?_ (fun _ hother => (hframed hother).mark label) ?_
    (hknown.mark label)
  · rw [code_mark, hcaught, Array.toList_push]
    rfl
  · have hreachable : (caught.mark label).reachable = true := by
      obtain ⟨r, hr, -, hstack⟩ := hentry
      rw [reachable_mark, stackAt?, hr, Option.bind_some, hstack, Bool.or_true]
    rw [hreachable]
    exact .entered (hentry.mark label) (.nil true)

theorem Tracks.goto (h : d.Tracks placed) (hr : d.reachable = true) (target : Label) :
    (d.goto target).Tracks placed := by
  obtain ⟨known, hknown⟩ : ∃ d₁ : Draft, d₁ = d.modifyLabel target fun r =>
    { r with stack := r.stack <|> some d.stack.entries, targeted := true } := ⟨_, rfl⟩
  have hgoto : d.goto target = { known.append (.jump .goto target) with reachable := false } := by
    rw [Draft.goto, if_pos hr, hknown]
  rw [hgoto]
  refine h.extend [.jump .goto target] ?_ (fun label hlabel => ?_) ?_ ?_
  · rw [hknown]
    exact Array.toList_push
  · have hframed : known.IsFramed label := by
      rw [hknown]
      refine hlabel.modifyLabel fun r _ hstack => ⟨rfl, ?_⟩
      cases hs : r.stack with
      | none => rfl
      | some stack => rfl
    exact hframed
  · rw [hr]
    exact .runs (fun _ => Instruction.noConfusion) (.nil false)
  · have hkept : known.Known placed := by
      rw [hknown]
      exact h.known.modifyLabel target fun _ => rfl
    exact hkept

theorem Tracks.performs (h : d.Tracks placed) (hr : d.reachable = true) {i : Instruction}
    (hi : i.isStraight = true) (hperforms : d.Performs i d') : d'.Tracks placed := by
  have hlabels := hperforms.labels
  refine h.extend [i] (by rw [hperforms.code, Array.toList_push]) (fun label hlabel => ?_) ?_ ?_
  · rwa [IsFramed, hlabels]
  · rw [hr, hperforms.reachable]
    refine .runs (fun label hmark => ?_) (.nil _)
    rw [hmark] at hi
    cases hi
  · rw [Known, hlabels]
    exact h.known

theorem Tracks.addLabel (h : d.Tracks placed) : d.addLabel.Tracks placed := by
  refine h.extend [] (List.append_nil _).symm ?_ (.nil _) ?_
  · rintro label ⟨r, hr, hr'⟩
    refine ⟨r, ?_, hr'⟩
    obtain ⟨hlt, -⟩ := Array.getElem?_eq_some_iff.1 hr
    rw [Draft.addLabel, Array.getElem?_push, if_neg (Nat.ne_of_lt hlt)]
    exact hr
  · intro label r hr hstack
    rw [Draft.addLabel, Array.getElem?_push] at hr
    split_ifs at hr with hlast
    · cases hr
      cases hstack
    · exact h.known label r hr hstack

theorem Tracks.step_of_unplaced (h : d.Tracks placed) {s : Step} (hs : s.placed? = none)
    (hf : (d.step s).fault = none) : (d.step s).Tracks placed := by
  cases s with
  | label => exact h.addLabel
  | mark label => cases hs
  | markHandler label exception => cases hs
  | goto target =>
    cases hr : d.reachable with
    | true => exact h.goto hr target
    | false => simpa [Draft.step, Draft.goto, hr] using h
  | protect entry => exact ⟨h.code, h.known⟩
  | _ =>
    rcases step_straight rfl hf with hsame | ⟨hr, i, hi, hperforms⟩
    · rwa [hsame]
    · exact h.performs hr hi hperforms

theorem Tracks.step_of_placed (h : d.Tracks placed) {s : Step} {label : Label}
    (hs : s.placed? = some label) (hlabel : label ∉ placed) (hmade : label.index < d.labels.size) :
    (d.step s).Tracks (label :: placed) := by
  cases s with
  | mark label =>
    cases hs
    exact h.mark hlabel
  | markHandler label exception =>
    cases hs
    exact h.markHandler hmade exception
  | _ => cases hs

/-- A run keeps track, if it places no label twice. -/
theorem Tracks.run (h : d.Tracks placed) {steps : List Step} (hf : (d.run steps).fault = none)
    (hnew : PlacesNew d.labels.size placed steps) : ∃ placed', (d.run steps).Tracks placed' := by
  induction steps generalizing d placed with
  | nil => exact ⟨placed, h⟩
  | cons s steps ih =>
    have hstep : (d.step s).fault = none := fault_run hf
    rcases hnew.cases_cons hstep with ⟨hs, hrest⟩ | ⟨label, hs, hfresh, hlt, -, hrest⟩
    · exact ih (h.step_of_unplaced hs hstep) hf hrest
    · exact ih (h.step_of_placed hs hfresh hlt) hf hrest

end Draft

/-- Between an instruction that ends the flow and any later one that produces code stands a label
with a frame, and before the first such label no source line is opened. -/
def MethodBody.ResumesAtFrames (b : MethodBody) : Prop :=
  ∀ before i between j after, b.instructions = before ++ i :: (between ++ j :: after) →
    i.endsFlow = true → j.isCode = true →
      ∃ dead label rest, between = dead ++ .mark label :: rest ∧ label ∈ b.frames.map Frame.label ∧
        ∀ k ∈ dead, ∃ other, k = .mark other

def MethodBody.Ends (b : MethodBody) : Prop :=
  ∃ i, b.code.getLast? = some i ∧ i.endsFlow = true

theorem Draft.IsFramed.mem_frames {d : Draft} {label : Label} (h : d.IsFramed label) :
    label ∈ d.frames.map Frame.label := by
  obtain ⟨r, hr, htargeted, hstack⟩ := h
  obtain ⟨stack, hstack⟩ := Option.isSome_iff_exists.1 hstack
  have hframe : ⟨label, stack.reverse⟩ ∈ d.frames := by
    rw [Draft.mem_frames, frame?, hr, Option.bind_some, LabelRecord.frame?, if_pos htargeted,
      hstack, List.reverse_reverse]
  exact List.mem_map_of_mem hframe

/-- Whatever steps a body is built by, if no label is placed twice, it has no code that cannot be
reached: what follows an instruction that ends the flow starts at a label with a frame, and the
last instruction ends the flow. -/
theorem Draft.finish_resumes_at_frames {d : Draft} (hd : d.IsNew) {steps : List Step}
    (hmade : madeFirst Step.placed? 0 steps = true) (honce : (placedLabels steps).Nodup)
    {b : MethodBody} (h : (d.run steps).finish = .ok b) : b.ResumesAtFrames ∧ b.Ends := by
  have hfinishes := finishes_of_finish h
  obtain ⟨placed, htracks⟩ := hd.tracks.run hfinishes.fault (hd.placesNew hmade honce)
  have hresumes := htracks.code.mono fun _ hframed => hframed.mem_frames
  rw [hfinishes.reachable, ← hfinishes.instructions, ← hfinishes.frames] at hresumes
  refine ⟨fun before i between j after hcode hi hj => ?_, ?_⟩
  · rw [hcode] at hresumes
    exact (hresumes.split hi).exists_framed hj
  · exact hresumes.ends.resolve_left fun hnone => Bool.noConfusion hnone.1

namespace Rescue

/-- Answers the receiver past a handler that throws again, with steps that are never reached. -/
def steps : List Draft.Step :=
  [.label, .label, .label, .mark ⟨0⟩, .line 1, .load 0, .goto ⟨2⟩, .line 2, .load 0,
    .markHandler ⟨1⟩ "java/lang/Throwable", .line 3, .plain .athrow, .plain .nop, .mark ⟨2⟩,
    .plain .areturn, .protect ⟨⟨0⟩, ⟨1⟩, ⟨1⟩, some "java/lang/Throwable"⟩]

def body : MethodBody where
  instructions := [.mark ⟨0⟩, .line 1, .slot .aload 0, .jump .goto ⟨2⟩, .mark ⟨1⟩, .line 3,
    .plain .athrow, .mark ⟨2⟩, .plain .areturn]
  handlers := [⟨⟨0⟩, ⟨1⟩, ⟨1⟩, some "java/lang/Throwable"⟩]
  frames := [⟨⟨1⟩, [.object "java/lang/Throwable"]⟩, ⟨⟨2⟩, [.object "st/Greeter"]⟩]
  locals := [.object "st/Greeter"]
  maxStack := 1
  maxLocals := 1

theorem finishes : ((Draft.method [.object "st/Greeter"]).run steps).finish = .ok body := by
  decide +kernel

end Rescue

theorem resumes_at_frames_rescue :
    ((Draft.method [.object "st/Greeter"]).run Rescue.steps).finish = .ok Rescue.body ∧
      Rescue.body.ResumesAtFrames ∧ Rescue.body.Ends :=
  ⟨Rescue.finishes, Draft.finish_resumes_at_frames (.method _ _) (by decide) (by decide)
    Rescue.finishes⟩

end SmalltalkJvm
