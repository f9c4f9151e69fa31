import SmalltalkJvm.Proofs.LabelRecords

/-! # What a body refers to

Branches, protected ranges, handlers and frames name labels, and frames name the creations of
objects that are not constructed yet. A draft keeps account of the labels that it branches to, and
all of them have to be placed before it can be finished, like the ends of protected ranges. So what
a finished body refers to is there, unless it is the label of a handler: nothing asks for that one
to be placed.
-/

namespace SmalltalkJvm

def VerificationType.CreatedIn (code : List Instruction) (t : VerificationType) : Prop :=
  ∀ creation, t = .uninitialized creation →
    ∃ className, code[creation]? = some (.classRef .new className)

theorem VerificationType.CreatedIn.append {code : List Instruction} {t : VerificationType}
    (h : t.CreatedIn code) (more : List Instruction) : t.CreatedIn (code ++ more) := by
  intro creation hcreation
  obtain ⟨className, hclass⟩ := h creation hcreation
  have hlt := (List.getElem?_eq_some_iff.1 hclass).1
  exact ⟨className, by rw [List.getElem?_append_left hlt, hclass]⟩

namespace Flow

structure All (P : VerificationType → Prop) (f : Flow) : Prop where
  stack : ∀ t ∈ f.stack, P t
  locals : ∀ t ∈ f.locals, P t

variable {P : VerificationType → Prop} {f f' : Flow} {this : Option String}

theorem All.push (h : f.All P) {t : VerificationType} (ht : P t) : (f.push t).All P :=
  ⟨List.forall_mem_cons.2 ⟨ht, h.stack⟩, h.locals⟩

theorem All.rest (h : f.All P) {t : VerificationType} {rest : List VerificationType}
    (hstack : f.stack = t :: rest) : P t ∧ ({ f with stack := rest } : Flow).All P := by
  obtain ⟨ht, hrest⟩ := List.forall_mem_cons.1 (hstack ▸ h.stack)
  exact ⟨ht, hrest, h.locals⟩

theorem All.drop? (h : f.All P) {n : Nat} (hdrop : f.drop? n = some f') : f'.All P := by
  unfold Flow.drop? at hdrop
  split_ifs at hdrop
  cases hdrop
  exact ⟨fun t ht => h.stack t (List.mem_of_mem_drop ht), h.locals⟩

theorem All.complete (h : f.All P) {old new : VerificationType} (hnew : P new) :
    (f.complete old new).All P := by
  have hmap {types : List VerificationType} (htypes : ∀ t ∈ types, P t) :
      ∀ t ∈ types.map fun t => if t = old then new else t, P t := by
    rw [List.forall_mem_map]
    intro t ht
    split_ifs
    · exact hnew
    · exact htypes t ht
  exact ⟨hmap h.stack, hmap h.locals⟩

section

-- Only a creation brings in an object that is not constructed yet.
variable (hP : ∀ t, (∀ creation, t ≠ .uninitialized creation) → P t)

include hP

theorem All.pushResult (h : f.All P) (result : Option FieldType) : (f.pushResult result).All P := by
  cases result with
  | none => exact h
  | some t => exact h.push (hP _ (by cases t <;> simp [VerificationType.ofFieldType]))

theorem All.construct (h : f.All P) (owner : String) (t : VerificationType) :
    (f.construct this owner t).All P := by
  cases t with
  | uninitializedThis => exact h.complete (hP _ (by simp))
  | uninitialized creation => exact h.complete (hP _ (by simp))
  | _ => exact h

theorem All.receive? (h : f.All P) {op : Opcode} {method : MemberRef}
    (hreceive : f.receive? this op method = some f') : f'.All P := by
  by_cases hs : op = .invokestatic
  · simp only [Flow.receive?, hs, ↓reduceIte, Option.some.injEq] at hreceive
    rwa [← hreceive]
  · simp only [Flow.receive?, hs, ↓reduceIte] at hreceive
    split at hreceive
    · rename_i t rest hstack
      cases hreceive
      split_ifs
      · exact (h.rest hstack).2.construct hP method.owner t
      · exact (h.rest hstack).2
    · cases hreceive

theorem All.assign (h : f.All P) (index : Nat) {t : VerificationType} (ht : P t) :
    (f.assign index t).All P := by
  refine ⟨h.stack, fun t' ht' => ?_⟩
  rcases List.mem_or_eq_of_mem_set ht' with hmem | rfl
  · rcases List.mem_append.1 hmem with hmem | hmem
    · exact h.locals t' hmem
    · rw [List.eq_of_mem_replicate hmem]
      exact hP _ (by simp)
  · exact ht

theorem All.plain? (h : f.All P) {op : Opcode} (hplain : f.plain? op = some f') : f'.All P := by
  cases op <;> simp only [Flow.plain?, reduceCtorEq, Option.some.injEq] at hplain
  case nop | returnVoid => exact hplain ▸ h
  case aconstNull | iconstM1 | iconst0 | iconst1 | iconst2 | iconst3 | iconst4 | iconst5 =>
    exact hplain ▸ h.push (hP _ (by simp))
  case pop | areturn | athrow => exact h.drop? hplain
  case pop2 =>
    split at hplain
    · split_ifs at hplain <;> exact h.drop? hplain
    · cases hplain
  case dup =>
    split at hplain
    · rename_i t rest hstack
      cases hplain
      exact h.push (h.rest hstack).1
    · cases hplain
  case dupX1 =>
    split at hplain
    · rename_i a b rest hstack
      cases hplain
      obtain ⟨ha, hrest⟩ := h.rest hstack
      obtain ⟨hb, hrest⟩ := hrest.rest rfl
      exact ((hrest.push ha).push hb).push ha
    · cases hplain
  case swap =>
    split at hplain
    · rename_i a b rest hstack
      cases hplain
      obtain ⟨ha, hrest⟩ := h.rest hstack
      obtain ⟨hb, hrest⟩ := hrest.rest rfl
      exact (hrest.push ha).push hb
    · cases hplain

theorem All.effect? (h : f.All P) {place : Nat} {i : Instruction}
    (hnew : ∀ className, i = .classRef .new className → P (.uninitialized place))
    (heffect : i.effect? this place f = some f') : f'.All P := by
  unfold Instruction.effect? at heffect
  split at heffect
  case h_1 => exact h.plain? hP heffect
  case h_5 =>
    obtain ⟨t, ht, rfl⟩ := Option.map_eq_some_iff.1 heffect
    exact h.push (h.locals t (List.mem_of_getElem? ht))
  case h_6 =>
    split at heffect
    · rename_i t rest hstack
      cases heffect
      obtain ⟨ht, hrest⟩ := h.rest hstack
      exact hrest.assign hP _ ht
    · cases heffect
  case h_7 className =>
    cases heffect
    exact h.push (hnew className rfl)
  case h_8 =>
    obtain ⟨t, -, rfl⟩ := Option.map_eq_some_iff.1 heffect
    exact h.pushResult hP (some t)
  case h_9 =>
    obtain ⟨d, f₁, f₂, -, hdrop, hreceive, rfl⟩ := Instruction.effect?_invoke place heffect
    exact ((h.drop? hdrop).receive? hP hreceive).pushResult hP _
  case h_10 =>
    obtain ⟨descriptor, -, heffect⟩ := Option.bind_eq_some_iff.1 heffect
    obtain ⟨f₁, hdrop, rfl⟩ := Option.map_eq_some_iff.1 heffect
    exact (h.drop? hdrop).pushResult hP _
  case h_2 | h_3 | h_4 =>
    cases heffect
    exact h.push (hP _ (by simp))
  case h_11 | h_12 | h_13 => exact Option.some.inj heffect ▸ h
  case h_14 => cases heffect

end

end Flow

namespace Draft

variable {d d' : Draft} {s : Step}

/-- Code is only added. -/
theorem exists_code_step (hf : (d.step s).fault = none) :
    ∃ more, (d.step s).code.toList = d.code.toList ++ more := by
  rcases step_adds hf with ⟨-, hcode | ⟨i, -, hcode⟩⟩ | ⟨i, -, hi⟩
  · exact ⟨[], by rw [hcode, List.append_nil]⟩
  · exact ⟨[i], by rw [hcode, Array.toList_push]⟩
  · exact ⟨[i], by rw [hi.code, Array.toList_push]⟩

structure Created (d : Draft) : Prop where
  current : d.flow.All (·.CreatedIn d.code.toList)
  known : ∀ label stack, d.stackAt? label = some stack →
    ∀ t ∈ stack, t.CreatedIn d.code.toList

theorem createdIn_of_ne {code : List Instruction} {t : VerificationType}
    (h : ∀ creation, t ≠ .uninitialized creation) : t.CreatedIn code :=
  fun creation hcreation => absurd hcreation (h creation)

theorem IsNew.created (h : d.IsNew)
    (hentry : ∀ creation, .uninitialized creation ∉ d.entryLocals) : d.Created := by
  refine ⟨⟨?_, ?_⟩, fun label stack hknown => ?_⟩
  · rw [flow, h.entries]
    simp
  · rw [flow, h.locals]
    exact fun t ht => createdIn_of_ne fun creation heq => hentry creation (heq ▸ ht)
  · simp [stackAt?, h.labels] at hknown

theorem Created.step (h : d.Created) (hf : (d.step s).fault = none) : (d.step s).Created := by
  obtain ⟨more, hmore⟩ := exists_code_step hf
  have hkept {t : VerificationType} (ht : t.CreatedIn d.code.toList) :
      t.CreatedIn (d.step s).code.toList := hmore ▸ ht.append more
  refine ⟨?_, fun label stack hstack t ht => ?_⟩
  · cases hs : s.concernsLabels with
    | true =>
      refine ⟨fun t ht => ?_, fun t ht => ?_⟩
      · change t ∈ (d.step s).stack.entries at ht
        rcases entries_step (d := d) hs with hsame | ⟨label, hknown⟩ | ⟨exception, hhandler⟩
        · rw [hsame] at ht
          exact hkept (h.current.stack t ht)
        · exact hkept (h.known label _ hknown t ht)
        · rw [hhandler, List.mem_singleton] at ht
          exact createdIn_of_ne (by simp [ht])
      · rw [flow, (sameVariables_step hs).locals] at ht
        exact hkept (h.current.locals t ht)
    | false =>
      rcases step_straight hs hf with hsame | ⟨-, i, -, hi⟩
      · rw [hsame]
        exact h.current
      · have hflow : d.flow.All (·.CreatedIn (d.step s).code.toList) :=
          ⟨fun t ht => hkept (h.current.stack t ht), fun t ht => hkept (h.current.locals t ht)⟩
        refine hflow.effect? (fun t => createdIn_of_ne) (fun className hnew => ?_) hi.effect
        rintro creation ⟨⟩
        exact ⟨className, by simp [hi.code, hnew]⟩
  · rcases stackAt?_step hf hstack with hold | rfl | ⟨exception, -, -, rfl⟩
    · exact hkept (h.known label stack hold t ht)
    · exact hkept (h.current.stack t ht)
    · rw [List.mem_singleton] at ht
      exact createdIn_of_ne (by simp [ht])

/-- A call that is carried out has a descriptor that can be read. -/
theorem isOk_of_invoke_effect? {this : Option String} {place : Nat} {f f' : Flow} {op : Opcode}
    {method : MemberRef} (h : (Instruction.invoke op method).effect? this place f = some f') :
    (MethodDescriptor.parse method.descriptor).isOk = true := by
  obtain ⟨descriptor, hparse, -⟩ := Option.bind_eq_some_iff.1 h
  rw [eq_ok_of_toOption hparse]
  rfl

def CallsParse (d : Draft) : Prop :=
  ∀ op method, .invoke op method ∈ d.code.toList →
    (MethodDescriptor.parse method.descriptor).isOk = true

theorem IsNew.callsParse (h : d.IsNew) : d.CallsParse := by
  intro op method hmem
  simp [h.code] at hmem

theorem CallsParse.step (h : d.CallsParse) (hf : (d.step s).fault = none) :
    (d.step s).CallsParse := by
  intro op method hmem
  rcases step_adds hf with ⟨-, hcode | ⟨i, hi, hcode⟩⟩ | ⟨i, -, hi⟩
  · exact h op method (hcode ▸ hmem)
  · rw [hcode, Array.toList_push, List.mem_append, List.mem_singleton] at hmem
    rcases hmem with hmem | rfl
    · exact h op method hmem
    · cases isStraight_of_adds? hi
  · rw [hi.code, Array.toList_push, List.mem_append, List.mem_singleton] at hmem
    rcases hmem with hmem | rfl
    · exact h op method hmem
    · exact isOk_of_invoke_effect? hi.effect

/-- A label that counts as placed is in the code, and one that the code branches to counts as a
target. -/
structure Labelled (d : Draft) : Prop where
  placed : ∀ label, d.isPlaced label = true → .mark label ∈ d.code.toList
  jumps : ∀ op target, .jump op target ∈ d.code.toList →
    ∃ r, d.labels[target.index]? = some r ∧ r.targeted = true

theorem IsNew.labelled (h : d.IsNew) : d.Labelled := by
  refine ⟨fun label hplaced => ?_, fun op target hmem => ?_⟩
  · simp [isPlaced, h.labels] at hplaced
  · simp [h.code] at hmem

theorem Labelled.step (h : d.Labelled) (hf : (d.step s).fault = none)
    (hmade : ∀ target, s.target? = some target → target.index < d.labels.size) :
    (d.step s).Labelled := by
  refine ⟨fun label hplaced => ?_, fun op target hmem => ?_⟩
  · rcases isPlaced_step hf hplaced with hold | hs
    · obtain ⟨more, hmore⟩ := exists_code_step hf
      rw [hmore]
      exact List.mem_append_left _ (h.placed label hold)
    · cases s with
      | mark target =>
        cases hs
        simp [Draft.step, code_mark]
      | markHandler target exception =>
        cases hs
        simp [Draft.step, markHandler, code_mark]
      | _ => cases hs
  · have hold (hjump : .jump op target ∈ d.code.toList) :
        ∃ r, (d.step s).labels[target.index]? = some r ∧ r.targeted = true := by
      obtain ⟨r, hr, htargeted⟩ := h.jumps op target hjump
      obtain ⟨r', hr', hbecomes⟩ := becomes_step hf hr
      exact ⟨r', hr', hbecomes.targeted htargeted⟩
    rcases step_adds hf with ⟨-, hcode | ⟨i, hi, hcode⟩⟩ | ⟨i, hstraight, hi⟩
    · exact hold (hcode ▸ hmem)
    · by_cases hjump : .jump op target ∈ d.code.toList
      · exact hold hjump
      · rw [hcode, Array.toList_push, List.mem_append, List.mem_singleton] at hmem
        obtain rfl := hmem.resolve_left hjump
        cases s with
        | goto other =>
          cases hi
          obtain ⟨r, hr⟩ : ∃ r, d.labels[target.index]? = some r :=
            ⟨_, Array.getElem?_eq_getElem (hmade target rfl)⟩
          have hreach : d.reachable = true := by
            by_contra hr
            simp [Draft.step, goto, hr] at hcode
          simp only [Draft.step, goto, hreach, ↓reduceIte]
          change ∃ r, (d.modifyLabel target _).labels[target.index]? = some r ∧ _
          rw [labels_modifyLabel, hr, Option.map_some, if_pos rfl]
          exact ⟨_, rfl, rfl⟩
        | _ => cases hi
    · rw [hi.code, Array.toList_push, List.mem_append, List.mem_singleton] at hmem
      rcases hmem with hmem | rfl
      · exact hold hmem
      · cases hstraight

theorem Labelled.run (h : d.Labelled) {steps : List Step} (hf : (d.run steps).fault = none)
    (hmade : madeFirst Step.target? d.labels.size steps = true) : (d.run steps).Labelled := by
  induction steps generalizing d with
  | nil => exact h
  | cons s steps ih =>
    have hstep : (d.step s).fault = none := fault_run hf
    obtain ⟨htarget, hrest⟩ := madeFirst_cons hmade
    rw [← size_step hstep] at hrest
    exact ih (h.step hstep htarget) hf hrest

theorem mem_targets {label : Label} :
    label ∈ d.targets ↔ ∃ r, d.labels[label.index]? = some r ∧ r.targeted = true := by
  obtain ⟨n⟩ := label
  simp only [targets, List.mem_filterMap, Prod.exists, List.mem_zipIdx_iff_getElem?,
    Array.getElem?_toList]
  constructor
  · rintro ⟨r, i, hr, h⟩
    split_ifs at h with ht
    cases h
    exact ⟨r, hr, ht⟩
  · rintro ⟨r, hr, ht⟩
    exact ⟨r, n, hr, if_pos ht⟩

end Draft

/-- What a body refers to is there, but for the labels of its handlers. -/
structure MethodBody.Resolved (b : MethodBody) : Prop where
  jumps : ∀ op target, .jump op target ∈ b.instructions → .mark target ∈ b.instructions
  ranges : ∀ e ∈ b.handlers, .mark e.start ∈ b.instructions ∧ .mark e.stop ∈ b.instructions
  frames : ∀ f ∈ b.frames, .mark f.label ∈ b.instructions
  created : ∀ f ∈ b.frames, ∀ t ∈ b.locals ++ f.stack, t.CreatedIn b.instructions
  calls : ∀ op method, .invoke op method ∈ b.instructions →
    (MethodDescriptor.parse method.descriptor).isOk = true

theorem Draft.resolved_of_finish {d : Draft} (hd : d.IsNew) {steps : List Step}
    (hentry : ∀ creation, .uninitialized creation ∉ d.entryLocals)
    (hmade : madeFirst Step.target? 0 steps = true) {b : MethodBody}
    (h : (d.run steps).finish = .ok b) : b.Resolved := by
  have hfinishes := finishes_of_finish h
  have hlabelled := hd.labelled.run hfinishes.fault (by simpa [hd.labels] using hmade)
  have hcreated := run_induction (fun h hf => h.step hf) (hd.created hentry) hfinishes.fault
  have hplaced {label : Label} (hlabel : label ∈ (d.run steps).requiredLabels) :
      .mark label ∈ b.instructions := by
    rw [hfinishes.instructions]
    exact hlabelled.placed label (hfinishes.placed label hlabel)
  have hframe {f : Frame} (hf : f ∈ b.frames) : ∃ r, (d.run steps).labels[f.label.index]? = some r ∧
      r.targeted = true ∧ r.stack = some f.stack.reverse := by
    rw [hfinishes.frames, mem_frames] at hf
    exact exists_record_of_frame? hf
  refine ⟨fun op target hjump => ?_, fun e he => ?_, fun f hf => ?_, fun f hf t ht => ?_, ?_⟩
  · rw [hfinishes.instructions] at hjump
    exact hplaced (List.mem_append_left _ (mem_targets.2 (hlabelled.jumps op target hjump)))
  · rw [hfinishes.handlers] at he
    have hmem {label : Label} (hlabel : label ∈ [e.start, e.stop]) :
        label ∈ (d.run steps).requiredLabels :=
      List.mem_append_right _ (List.mem_flatMap.2 ⟨e, he, hlabel⟩)
    exact ⟨hplaced (hmem (by simp)), hplaced (hmem (by simp))⟩
  · obtain ⟨r, hr, htargeted, -⟩ := hframe hf
    exact hplaced (List.mem_append_left _ (mem_targets.2 ⟨r, hr, htargeted⟩))
  · rcases List.mem_append.1 ht with ht | ht
    · rw [hfinishes.locals, entryLocals_run hfinishes.fault] at ht
      exact createdIn_of_ne fun creation heq => hentry creation (heq ▸ ht)
    · obtain ⟨r, hr, -, hstack⟩ := hframe hf
      rw [hfinishes.instructions]
      exact hcreated.known f.label _ (Option.bind_eq_some_iff.2 ⟨r, hr, hstack⟩) t (by simpa)
  · rw [hfinishes.instructions]
    exact run_induction (fun h hf => h.step hf) hd.callsParse hfinishes.fault

end SmalltalkJvm
