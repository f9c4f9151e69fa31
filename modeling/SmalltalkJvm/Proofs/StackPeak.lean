import Mathlib.Data.List.Infix
import SmalltalkJvm.Proofs.LabelRecords

/-! # The largest stack

A finished body can be replayed: the types go from instruction to instruction, and at a label that
has a frame they go on with the stack of the frame. The draft simulates the same while it is built,
but keeps only the most slots that its stack has taken, and drops what control does not come to.

The two agree. Wherever control is, the replay has the types of the draft; where it is not, the
replay stands still or at frames, whose stacks the draft has had. So the replay never finds too
little on the stack, and its largest stack is the one that the body declares.
-/

namespace SmalltalkJvm

section

variable (frame? : Label → Option (List VerificationType)) (this : Option String)

/-- What an instruction of a replay does to the types: its effect, or at a label with a frame the
step to the stack of the frame. -/
def Instruction.replay? (place : Nat) (f : Flow) : Instruction → Option Flow
  | .mark label => some { f with stack := (frame? label).getD f.stack }
  | i => i.effect? this place f

/-- The types at each place of code that starts at a place with the types given, up to its end.
There are none if an instruction finds too little on the stack. -/
def replay? : Nat → Flow → List Instruction → Option (List Flow)
  | _, f, [] => some [f]
  | place, f, i :: code =>
    (i.replay? frame? this place f).bind fun f' => (replay? (place + 1) f' code).map (f :: ·)

end

def MethodBody.replay? (b : MethodBody) (this : Option String) : Option (List Flow) :=
  SmalltalkJvm.replay? b.frame? this 0 ⟨[], b.locals⟩ b.instructions

section

variable {frame? : Label → Option (List VerificationType)} {this : Option String}

theorem Instruction.replay?_eq_effect? {i : Instruction} (hi : ∀ label, i ≠ .mark label)
    (place : Nat) (f : Flow) : i.replay? frame? this place f = i.effect? this place f := by
  cases i with
  | mark label => exact absurd rfl (hi label)
  | _ => rfl

theorem mem_of_replay? {place : Nat} {f : Flow} {code : List Instruction} {flows : List Flow}
    (h : replay? frame? this place f code = some flows) : f ∈ flows := by
  cases code with
  | nil =>
    cases h
    exact List.mem_singleton_self f
  | cons i code =>
    obtain ⟨f', -, h⟩ := Option.bind_eq_some_iff.1 h
    obtain ⟨rest, -, rfl⟩ := Option.map_eq_some_iff.1 h
    exact List.mem_cons_self

end

theorem OperandStack.slots_ofList (entries : List VerificationType) :
    (ofList entries).slots = totalSlots entries := rfl

/-- Constructing an object does not change what its references take. -/
theorem OperandStack.slots_replace (s : OperandStack) {old new : VerificationType}
    (h : new.slots = old.slots) : (s.replace old new).slots = s.slots := by
  have hmap (entries : List VerificationType) :
      totalSlots (entries.map fun t => if t = old then new else t) = totalSlots entries := by
    induction entries with
    | nil => rfl
    | cons t entries ih =>
      rw [List.map_cons, totalSlots_cons, totalSlots_cons, ih, VerificationType.slots_completed h]
  rw [replace, slots_ofList, hmap, s.slots_eq]

namespace Draft

variable {d d₁ d' : Draft}

structure Drops (d d' : Draft) : Prop where
  peak : d'.peak = d.peak
  slots : d'.stack.slots ≤ d.stack.slots

theorem Drops.refl (d : Draft) : d.Drops d := ⟨rfl, Nat.le_refl _⟩

theorem Drops.trans (h : d.Drops d₁) (k : d₁.Drops d') : d.Drops d' :=
  ⟨k.peak.trans h.peak, Nat.le_trans k.slots h.slots⟩

def Peaks (d d' : Draft) : Prop :=
  d.stack.slots ≤ d.peak → d'.peak = max d.peak d'.stack.slots

theorem Drops.peaks (h : d.Drops d') : d.Peaks d' := by
  intro hle
  have := h.slots
  rw [h.peak]
  omega

/-- What is pushed after operands have been taken. -/
theorem Drops.push (h : d.Drops d₁) (t : VerificationType) : d.Peaks (d₁.push t) := by
  intro _
  rw [← h.peak]
  rfl

theorem Peaks.push (h : d.Peaks d') (t : VerificationType) : d.Peaks (d'.push t) := by
  intro hle
  change max d'.peak (d'.stack.slots + t.slots) = max d.peak (d'.stack.slots + t.slots)
  have := h hle
  omega

theorem drops_pop (d : Draft) (op : Opcode) : d.Drops (d.pop op).2 := by
  cases hs : d.stack.entries with
  | nil =>
    rw [pop_of_nil hs]
    exact ⟨rfl, Nat.le_refl _⟩
  | cons t rest =>
    rw [pop_of_cons hs]
    refine ⟨rfl, ?_⟩
    rw [d.stack.slots_eq, hs, totalSlots_cons]
    exact Nat.le_add_left _ _

theorem drops_popMany (d : Draft) (op : Opcode) (n : Nat) : d.Drops (d.popMany op n) := by
  induction n generalizing d with
  | zero => exact .refl d
  | succ n ih => exact (d.drops_pop op).trans (ih _)

theorem drops_complete (d : Draft) {old new : VerificationType} (h : new.slots = old.slots) :
    d.Drops (d.complete old new) :=
  ⟨rfl, Nat.le_of_eq (d.stack.slots_replace h)⟩

theorem drops_construct (d : Draft) (receiver : Option VerificationType) (owner : String) :
    d.Drops (d.construct receiver owner) := by
  unfold construct
  split
  · exact d.drops_complete rfl
  · exact d.drops_complete rfl
  · exact .refl d

theorem drops_popReceiver (d : Draft) (op : Opcode) (method : MemberRef) :
    d.Drops (d.popReceiver op method) := by
  unfold popReceiver
  split_ifs
  · exact .refl d
  · exact (d.drops_pop op).trans (drops_construct _ _ _)
  · exact d.drops_pop op

theorem Drops.pushResult (h : d.Drops d₁) (result : Option FieldType) :
    d.Peaks (d₁.pushResult result) := by
  cases result with
  | none => exact h.peaks
  | some t => exact h.push _

theorem peaks_operate (d : Draft) (op : Opcode) : d.Peaks (d.operate op) := by
  have hpop := d.drops_pop op
  have htwice := hpop.trans ((d.pop op).2.drops_pop op)
  cases op
  case aconstNull => exact (Drops.refl d).push _
  case iconstM1 | iconst0 | iconst1 | iconst2 | iconst3 | iconst4 | iconst5 =>
    exact (Drops.refl d).push _
  case pop | areturn | athrow => exact hpop.peaks
  case pop2 =>
    simp only [operate]
    split <;> rename_i heq
    · rw [heq] at hpop htwice
      split_ifs
      · exact hpop.peaks
      · exact htwice.peaks
    · rw [heq] at hpop
      exact hpop.peaks
  case dup =>
    simp only [operate]
    split <;> rename_i heq <;> rw [heq] at hpop
    · exact (hpop.push _).push _
    · exact hpop.peaks
  case dupX1 =>
    simp only [operate]
    split
    · rename_i heq
      rw [heq] at htwice
      exact ((htwice.push _).push _).push _
    · rename_i heq _
      rw [heq] at htwice
      exact htwice.peaks
  case swap =>
    simp only [operate]
    split
    · rename_i heq
      rw [heq] at htwice
      exact (htwice.push _).push _
    · rename_i heq _
      rw [heq] at htwice
      exact htwice.peaks
  all_goals exact (Drops.refl d).peaks

theorem peaks_plain (d : Draft) (op : Opcode) : d.Peaks (d.plain op) := by
  unfold plain
  split_ifs
  · exact d.peaks_operate op
  · exact (Drops.refl d).peaks
  · exact (Drops.refl d).peaks

theorem peaks_mark (d : Draft) (label : Label) : d.Peaks (d.mark label) := by
  cases hr : d.reachable with
  | true =>
    rw [mark_of_reachable hr]
    exact (Drops.refl d).peaks
  | false =>
    rw [mark_of_unreachable hr]
    cases d.stackAt? label with
    | none => exact (Drops.refl d).peaks
    | some stack => exact fun _ => rfl

/-- The invariant of every step: the peak rises to what the stack takes, and never else. -/
theorem peaks_step (d : Draft) (s : Step) : d.Peaks (d.step s) := by
  have hsame : d.Peaks d := (Drops.refl d).peaks
  cases s with
  | line number =>
    simp only [step, openLine]
    split_ifs <;> exact hsame
  | plain op => exact d.peaks_plain op
  | discard =>
    simp only [step, discard]
    split <;> exact d.peaks_plain _
  | int value =>
    simp only [step, pushInt]
    split_ifs
    · exact (Drops.refl d).push _
    · exact hsame
  | string text =>
    simp only [step, pushString]
    split_ifs
    · exact (Drops.refl d).push _
    · exact hsame
  | load slot =>
    simp only [step, load]
    split_ifs
    · split
      · exact (Drops.refl d).push _
      · exact hsame
    · exact hsame
  | store slot =>
    have hpop := d.drops_pop .astore
    simp only [step, store]
    split_ifs
    · split <;> rename_i heq <;> rw [heq] at hpop <;> exact hpop.peaks
    · exact hsame
  | create className =>
    simp only [step, create]
    split_ifs
    · exact (Drops.refl d).push _
    · exact hsame
  | getStatic field =>
    simp only [step, getStatic]
    split_ifs
    · split
      · exact (Drops.refl d).push _
      · exact hsame
    · exact hsame
  | invoke op method =>
    simp only [step, invoke]
    split_ifs
    · split
      · exact ((d.drops_popMany op _).trans (drops_popReceiver _ op method)).pushResult _
      · exact hsame
    · exact hsame
  | invokeDynamic site =>
    simp only [step, invokeDynamic]
    split_ifs
    · split
      · exact (d.drops_popMany _ _).pushResult _
      · exact hsame
    · exact hsame
  | mark label => exact d.peaks_mark label
  | markHandler label exception =>
    exact peaks_mark { d.modifyLabel label fun r =>
      { r with stack := some [.object exception], targeted := true } with reachable := false } label
  | goto target =>
    simp only [step, goto]
    split_ifs <;> exact hsame
  | label | protect => exact hsame

structure Covers (d : Draft) : Prop where
  current : d.stack.slots ≤ d.peak
  known : ∀ label stack, d.stackAt? label = some stack → totalSlots stack ≤ d.peak

theorem IsNew.covers (h : d.IsNew) : d.Covers := by
  refine ⟨?_, fun label stack hstack => ?_⟩
  · rw [d.stack.slots_eq, h.entries]
    exact Nat.zero_le _
  · simp [stackAt?, h.labels] at hstack

theorem Covers.peak_step (h : d.Covers) (s : Step) :
    (d.step s).peak = max d.peak (d.step s).stack.slots := d.peaks_step s h.current

theorem Covers.of_known (h : d.Covers) {s : Step}
    (hknown : ∀ label stack, (d.step s).stackAt? label = some stack →
      d.stackAt? label = some stack ∨ totalSlots stack ≤ (d.step s).peak) : (d.step s).Covers := by
  have hpeak := h.peak_step s
  refine ⟨by omega, fun label stack hstack => ?_⟩
  rcases hknown label stack hstack with hold | hnew
  · have := h.known label stack hold
    omega
  · exact hnew

theorem Covers.step (h : d.Covers) {s : Step} (hf : (d.step s).fault = none) :
    (d.step s).Covers := by
  have hpeak := h.peak_step s
  have hcurrent : totalSlots d.stack.entries ≤ (d.step s).peak := by
    have := h.current
    rw [d.stack.slots_eq] at this
    omega
  refine h.of_known fun label stack hstack => (stackAt?_step hf hstack).imp_right ?_
  rintro (rfl | ⟨exception, rfl, hmade, rfl⟩)
  · exact hcurrent
  · rw [Draft.step, markHandler_eq d exception hmade]
    exact Nat.le_max_right _ _

/-- A stack that is known stays, and so does the need of a frame. -/
structure Remembers (r r' : LabelRecord) : Prop where
  stack : ∀ stack, r.stack = some stack → r'.stack = some stack
  targeted : r.targeted = true → r'.targeted = true

theorem Remembers.refl (r : LabelRecord) : Remembers r r := ⟨fun _ h => h, id⟩

theorem Remembers.trans {r r₁ r' : LabelRecord} (h : Remembers r r₁) (k : Remembers r₁ r') :
    Remembers r r' :=
  ⟨fun stack hstack => k.stack stack (h.stack stack hstack), fun ht => k.targeted (h.targeted ht)⟩

variable {label : Label} {r : LabelRecord}

theorem remembers_run {steps : List Step} (hs : label ∉ placedLabels steps)
    (hf : (d.run steps).fault = none) (hr : d.labels[label.index]? = some r) :
    ∃ r', (d.run steps).labels[label.index]? = some r' ∧ Remembers r r' := by
  induction steps generalizing d r with
  | nil => exact ⟨r, hr, .refl r⟩
  | cons s steps ih =>
    have hfirst : s.placed? ≠ some label := fun h => hs (List.mem_filterMap.2 ⟨s, by simp, h⟩)
    have hrest : label ∉ placedLabels steps := fun h =>
      hs (List.mem_filterMap.2 (by simpa using .inr (List.mem_filterMap.1 h)))
    obtain ⟨r₁, hr₁, hbecomes⟩ := becomes_step (fault_run hf) hr
    obtain ⟨r', hr', hlater⟩ := ih hrest hf hr₁
    exact ⟨r', hr', (Remembers.mk (hbecomes.stack hfirst) hbecomes.targeted).trans hlater⟩

/-- A replay is where a draft is: it has the same variables, and where control comes to, the same
stack. -/
structure Agrees (d : Draft) (f : Flow) : Prop where
  locals : f.locals = d.locals
  stack : d.reachable = true → f.stack = d.stack.entries

/-- What is added to a draft up to another is replayed with the frames of the latter, within its
peak. If the peak has risen, the replay has been there. -/
def Replays (d d' : Draft) (f : Flow) : Prop :=
  ∃ added flows, d'.code.toList = d.code.toList ++ added ∧
    replay? d'.frame? d.thisClass d.code.size f added = some flows ∧
    (∀ g ∈ flows, totalSlots g.stack ≤ d'.peak) ∧
    (d'.peak = d.peak ∨ ∃ g ∈ flows, totalSlots g.stack = d'.peak)

variable {f f' : Flow}

theorem Replays.refl (hle : totalSlots f.stack ≤ d.peak) : d.Replays d f :=
  ⟨[], [f], by simp, rfl, by simpa using hle, .inl rfl⟩

theorem Replays.skip (h : d₁.Replays d' f) (hcode : d₁.code = d.code)
    (hthis : d₁.thisClass = d.thisClass) (hpeak : d₁.peak = d.peak) : d.Replays d' f := by
  rwa [Replays, hcode, hthis, hpeak] at h

theorem Replays.cons (h : d₁.Replays d' f') {i : Instruction} (hcode : d₁.code = d.code.push i)
    (hthis : d₁.thisClass = d.thisClass)
    (hreplay : i.replay? d'.frame? d.thisClass d.code.size f = some f')
    (hle : totalSlots f.stack ≤ d'.peak)
    (hpeak : d₁.peak = d.peak ∨ d₁.peak = totalSlots f'.stack) : d.Replays d' f := by
  obtain ⟨added, flows, hadded, hflows, hbound, hattained⟩ := h
  rw [hcode, Array.size_push, hthis] at hflows
  refine ⟨i :: added, f :: flows, by rw [hadded, hcode]; simp, ?_,
    List.forall_mem_cons.2 ⟨hle, hbound⟩, ?_⟩
  · rw [replay?, hreplay, Option.bind_some, hflows, Option.map_some]
  · rcases hattained with hsame | ⟨g, hg, hslots⟩
    · rcases hpeak with hpeak | hpeak
      · exact .inl (hsame.trans hpeak)
      · exact .inr ⟨f', .tail _ (mem_of_replay? hflows), (hsame.trans hpeak).symm⟩
    · exact .inr ⟨g, .tail _ hg, hslots⟩

/-- A replay meets a label with what is known of it in the end. -/
theorem Agrees.mark (h : d.Agrees f) {placed : List Label} (hknown : d.Known placed)
    (hlabel : label ∉ placed) (hmade : label.index < d.labels.size)
    (hkept : ∀ r, (d.mark label).labels[label.index]? = some r →
      ∃ r', d'.labels[label.index]? = some r' ∧ Remembers r r') :
    (d.mark label).Agrees { f with stack := (d'.frame? label).getD f.stack } := by
  have hrecord := Array.getElem?_eq_getElem hmade
  obtain ⟨r, hr⟩ : ∃ r, d.labels[label.index]? = some r := ⟨_, hrecord⟩
  have hmark := labels_mark d label label
  rw [hr, Option.map_some, if_pos rfl] at hmark
  obtain ⟨r', hr', hremembers⟩ := hkept _ hmark
  have hframe : d'.frame? label = r'.frame? := by rw [frame?, hr', Option.bind_some]
  cases hreach : d.reachable with
  | true =>
    have hstack : r'.stack = some d.stack.entries := hremembers.stack _ (by simp [hreach])
    rw [mark_of_reachable hreach]
    refine ⟨h.locals, fun _ => ?_⟩
    -- With or without a frame, the stack here is the one that is known.
    change (d'.frame? label).getD f.stack = d.stack.entries
    rw [hframe, LabelRecord.frame?, hstack, h.stack hreach]
    split_ifs <;> rfl
  | false =>
    rw [mark_of_unreachable hreach]
    refine ⟨h.locals, fun hresumes => ?_⟩
    obtain ⟨stack, hstack⟩ := Option.isSome_iff_exists.1 hresumes
    obtain ⟨r₀, hr₀, htargeted, -⟩ := hknown.isFramed hlabel hresumes
    obtain rfl : r₀ = r := Option.some.inj (hr₀.symm.trans hr)
    have hknownStack : r₀.stack = some stack := by
      rwa [stackAt?, hr, Option.bind_some] at hstack
    have hkeptStack : r'.stack = some stack := hremembers.stack _ (by simp [hreach, hknownStack])
    have hkeptTarget : r'.targeted = true := hremembers.targeted htargeted
    change (d'.frame? label).getD f.stack = ((d.stackAt? label).elim d.stack .ofList).entries
    rw [hframe, LabelRecord.frame?, if_pos hkeptTarget, hkeptStack, hstack]
    rfl

theorem Replays.mark
    (h : (d.mark label).Replays d' { f with stack := (d'.frame? label).getD f.stack })
    (hagrees : (d.mark label).Agrees { f with stack := (d'.frame? label).getD f.stack })
    (hcurrent : d.stack.slots ≤ d.peak) (hle : totalSlots f.stack ≤ d'.peak) :
    d.Replays d' f := by
  refine h.cons (code_mark d label) (d.sameVariables_mark label).thisClass rfl hle ?_
  have hpeak := d.peaks_mark label hcurrent
  cases hr : (d.mark label).reachable with
  | true =>
    rw [(d.mark label).stack.slots_eq, ← hagrees.stack hr] at hpeak
    omega
  | false =>
    -- Control is not at the label and does not come there, so the stack is the one before it.
    rw [reachable_mark, Bool.or_eq_false_iff] at hr
    have hnone : d.stackAt? label = none := by simpa using hr.2
    rw [mark_of_unreachable hr.1, hnone]
    exact .inl rfl

theorem Covers.run (h : d.Covers) {steps : List Step} (hf : (d.run steps).fault = none) :
    (d.run steps).Covers :=
  run_induction (fun h hf => h.step hf) h hf

/-- Going on at a frame stays within the peak. -/
theorem Covers.frame_le (h : d.Covers) (hle : totalSlots f.stack ≤ d.peak) (label : Label) :
    totalSlots ((d.frame? label).getD f.stack) ≤ d.peak := by
  cases hframe : d.frame? label with
  | none => exact hle
  | some stack =>
    obtain ⟨r, hr, -, hstack⟩ := exists_record_of_frame? hframe
    exact h.known label stack (Option.bind_eq_some_iff.2 ⟨r, hr, hstack⟩)

theorem Replays.performs {i : Instruction} (h : d₁.Replays d' d₁.flow) (hr : d.reachable = true)
    (hi : i.isStraight = true) (hperforms : d.Performs i d₁) (hagrees : d.Agrees f)
    (hpeak : d₁.peak = max d.peak d₁.stack.slots) (hle : totalSlots f.stack ≤ d'.peak) :
    d.Replays d' f := by
  have hflow : f = d.flow := by
    obtain ⟨stack, locals⟩ := f
    obtain rfl : locals = d.locals := hagrees.locals
    obtain rfl : stack = d.stack.entries := hagrees.stack hr
    rfl
  have hmark : ∀ label, i ≠ .mark label := by
    rintro label rfl
    cases hi
  refine h.cons hperforms.code hperforms.thisClass ?_ hle ?_
  · rw [i.replay?_eq_effect? hmark, hflow]
    exact hperforms.effect
  · rw [d₁.stack.slots_eq] at hpeak
    change _ ∨ d₁.peak = totalSlots d₁.stack.entries
    omega

variable {placed : List Label}

/-- A step that places no label either leaves the replay where it is or takes it along. -/
theorem replays_of_unplaced {s : Step} (hs : s.placed? = none) (hf : (d.step s).fault = none)
    (hcovers : d.Covers) (hagrees : d.Agrees f) (hle : totalSlots f.stack ≤ d'.peak)
    (h : ∀ g, (d.step s).Agrees g → totalSlots g.stack ≤ d'.peak → (d.step s).Replays d' g)
    (hrise : (d.step s).peak ≤ d'.peak) : d.Replays d' f := by
  have hpeak := hcovers.peak_step s
  have hbound : totalSlots (d.step s).flow.stack ≤ d'.peak := by
    have hslots := (d.step s).stack.slots_eq
    simp only [flow]
    omega
  cases s with
  | mark label => cases hs
  | markHandler label exception => cases hs
  | label => exact (h f ⟨hagrees.locals, hagrees.stack⟩ hle).skip rfl rfl rfl
  | protect entry => exact (h f ⟨hagrees.locals, hagrees.stack⟩ hle).skip rfl rfl rfl
  | goto target =>
    cases hr : d.reachable with
    | false =>
      have hsame : d.step (.goto target) = d := by simp [step, goto, hr]
      rw [hsame] at h
      exact h f hagrees hle
    | true =>
      have hgoto : d.step (.goto target) = { d.modifyLabel target (fun r =>
          { r with stack := r.stack <|> some d.stack.entries, targeted := true }) with
            code := d.code.push (.jump .goto target), reachable := false } := by
        simp [step, goto, hr, append, modifyLabel]
      rw [hgoto] at h
      have hafter := h f ⟨hagrees.locals, fun h => Bool.noConfusion h⟩ hle
      exact hafter.cons rfl rfl rfl hle (.inl rfl)
  | _ =>
    rcases step_straight rfl hf with hsame | ⟨hr, i, hi, hperforms⟩
    · rw [hsame] at h
      exact h f hagrees hle
    · exact (h _ ⟨rfl, fun _ => rfl⟩ hbound).performs hr hi hperforms hagrees hpeak hle

/-- A step that places a label takes the replay to its frame, or past it. -/
theorem replays_of_placed {s : Step} (hs : s.placed? = some label) (hcovers : d.Covers)
    (hcovers' : d'.Covers) (hknown : d.Known placed) (hlabel : label ∉ placed)
    (hmade : label.index < d.labels.size) (hagrees : d.Agrees f)
    (hle : totalSlots f.stack ≤ d'.peak)
    (hkept : ∀ r, (d.step s).labels[label.index]? = some r →
      ∃ r', d'.labels[label.index]? = some r' ∧ Remembers r r')
    (h : ∀ g, (d.step s).Agrees g → totalSlots g.stack ≤ d'.peak → (d.step s).Replays d' g) :
    d.Replays d' f := by
  cases s with
  | mark label =>
    cases hs
    have hmark := hagrees.mark hknown hlabel hmade hkept
    exact (h _ hmark (hcovers'.frame_le hle _)).mark hmark hcovers.current hle
  | markHandler label exception =>
    cases hs
    obtain ⟨caught, hcaught⟩ : ∃ d₁ : Draft, d₁ = { d.modifyLabel label fun r =>
      { r with stack := some [.object exception], targeted := true } with reachable := false } :=
      ⟨_, rfl⟩
    have hstep : d.step (.markHandler label exception) = caught.mark label := by rw [hcaught]; rfl
    rw [hstep] at hkept h
    have hcaughtAgrees : caught.Agrees f := by
      rw [hcaught]
      exact ⟨hagrees.locals, fun h => Bool.noConfusion h⟩
    have hcaughtKnown : caught.Known placed := by
      rw [hcaught]
      exact hknown.modifyLabel label fun _ => rfl
    have hmark := hcaughtAgrees.mark hcaughtKnown hlabel (by simpa [hcaught, modifyLabel]) hkept
    refine ((h _ hmark (hcovers'.frame_le hle _)).mark hmark ?_ hle).skip ?_ ?_ ?_
    · rw [hcaught]
      exact hcovers.current
    all_goals
      rw [hcaught]
      rfl
  | _ => cases hs

theorem peak_le_run (h : d.Covers) {steps : List Step} (hf : (d.run steps).fault = none) :
    d.peak ≤ (d.run steps).peak := by
  induction steps generalizing d with
  | nil => exact Nat.le_refl _
  | cons s steps ih =>
    have hstep := h.peak_step s
    have hrest := ih (h.step (fault_run hf)) hf
    change _ ≤ ((d.step s).run steps).peak
    omega

/-- The run lemma: whatever is added to a draft is replayed. -/
theorem replays_run {steps : List Step} (htracks : d.Tracks placed) (hcovers : d.Covers)
    (hf : (d.run steps).fault = none) (hnew : PlacesNew d.labels.size placed steps)
    (hagrees : d.Agrees f) (hle : totalSlots f.stack ≤ (d.run steps).peak) :
    d.Replays (d.run steps) f := by
  -- The frames are those of the last draft, so the induction goes from the first step on.
  induction steps generalizing d placed f with
  | nil => exact .refl hle
  | cons s steps ih =>
    have hstep : (d.step s).fault = none := fault_run hf
    have hcovered := hcovers.step hstep
    rcases hnew.cases_cons hstep with ⟨hs, hrest⟩ | ⟨label, hs, hfresh, hlt, hlabel, hrest⟩
    · exact replays_of_unplaced hs hstep hcovers hagrees hle
        (fun g hg hgle => ih (htracks.step_of_unplaced hs hstep) hcovered hf hrest hg hgle)
        (peak_le_run hcovered hf)
    · have hkept r (hr : (d.step s).labels[label.index]? = some r) :=
        remembers_run (d := d.step s) hlabel hf hr
      exact replays_of_placed hs hcovers (hcovers.run hf) htracks.known hfresh hlt hagrees hle hkept
        fun g hg hgle => ih (htracks.step_of_placed hs hfresh hlt) hcovered hf hrest hg hgle

/-- A peak is small if the stack never was large. -/
theorem peak_run_lt {steps : List Step} {bound : Nat} (h : d.Covers)
    (hf : (d.run steps).fault = none) (hpeak : d.peak < bound)
    (hslots : ∀ taken, taken <+: steps → (d.run taken).stack.slots < bound) :
    (d.run steps).peak < bound := by
  induction steps generalizing d with
  | nil => exact hpeak
  | cons s steps ih =>
    have hstep := h.peak_step s
    have hfirst := hslots [s] (List.prefix_append [s] steps)
    change (d.step s).stack.slots < bound at hfirst
    refine ih (h.step (fault_run hf)) hf (by omega) fun taken htaken => ?_
    exact hslots (s :: taken) (List.cons_prefix_cons.2 ⟨rfl, htaken⟩)

end Draft

/-- Whatever steps a body is built by, if labels are made before they are used, none is placed twice
and the stack never takes 65536 slots, it can be replayed from its start, and the largest stack that
it declares is the largest of the replay. -/
theorem Draft.finish_maxStack_exact {d : Draft} (hd : d.IsNew) {steps : List Step}
    (hmade : madeFirst Step.placed? 0 steps = true) (honce : (placedLabels steps).Nodup)
    (hslots : ∀ taken, taken <+: steps → (d.run taken).stack.slots < 65536) {b : MethodBody}
    (h : (d.run steps).finish = .ok b) :
    ∃ flows, b.replay? d.thisClass = some flows ∧
      (flows.map fun f => totalSlots f.stack).max? = some b.maxStack.toNat := by
  have hfinishes := finishes_of_finish h
  have hlocals : b.locals = d.locals := by
    rw [hfinishes.locals, entryLocals_run hfinishes.fault, hd.locals]
  obtain ⟨added, flows, hadded, hflows, hbound, hattained⟩ :=
    replays_run (f := ⟨[], b.locals⟩) hd.tracks hd.covers hfinishes.fault
      (hd.placesNew hmade honce) ⟨hlocals, fun _ => hd.entries.symm⟩ (Nat.zero_le _)
  have hlt := peak_run_lt hd.covers hfinishes.fault (by simp [hd.peak]) hslots
  have hmax : b.maxStack.toNat = (d.run steps).peak := by
    rw [hfinishes.maxStack, Nat.toUInt16, UInt16.toNat_ofNat', Nat.mod_eq_of_lt hlt]
  refine ⟨flows, ?_, ?_⟩
  · rw [MethodBody.replay?, hfinishes.frame?_eq, hfinishes.instructions, hadded, hd.code]
    simpa [hd.code] using hflows
  · rw [List.max?_eq_some_iff, hmax]
    refine ⟨?_, by simpa using hbound⟩
    rcases hattained with hsame | ⟨g, hg, hslots⟩
    · -- The peak has not risen, so the empty stack of the start is a largest one.
      rw [hsame, hd.peak]
      exact List.mem_map.2 ⟨_, mem_of_replay? hflows, rfl⟩
    · exact List.mem_map.2 ⟨g, hg, hslots⟩

namespace Clock

def objectInit : MemberRef := ⟨"java/lang/Object", "<init>", "()V"⟩

/-- Constructs a receiver that drops two wide values and makes an object, in a range with a handler
that throws again. What is pushed after the branch does not count. -/
def steps : List Draft.Step :=
  [.label, .label, .label, .load 0, .invoke .invokespecial objectInit, .mark ⟨0⟩,
    .getStatic ⟨"java/lang/Long", "MAX_VALUE", "J"⟩, .getStatic ⟨"java/lang/Double", "NaN", "D"⟩,
    .discard, .discard, .create "java/lang/Object", .plain .dup, .invoke .invokespecial objectInit,
    .goto ⟨2⟩, .int 1, .int 2, .int 3, .int 4, .int 5, .markHandler ⟨1⟩ "java/lang/Throwable",
    .plain .athrow, .mark ⟨2⟩, .discard, .plain .returnVoid, .protect ⟨⟨0⟩, ⟨1⟩, ⟨1⟩, none⟩]

def body : MethodBody where
  instructions := [.slot .aload 0, .invoke .invokespecial objectInit, .mark ⟨0⟩,
    .field .getstatic ⟨"java/lang/Long", "MAX_VALUE", "J"⟩,
    .field .getstatic ⟨"java/lang/Double", "NaN", "D"⟩, .plain .pop2, .plain .pop2,
    .classRef .new "java/lang/Object", .plain .dup, .invoke .invokespecial objectInit,
    .jump .goto ⟨2⟩, .mark ⟨1⟩, .plain .athrow, .mark ⟨2⟩, .plain .pop, .plain .returnVoid]
  handlers := [⟨⟨0⟩, ⟨1⟩, ⟨1⟩, none⟩]
  frames := [⟨⟨1⟩, [.object "java/lang/Throwable"]⟩, ⟨⟨2⟩, [.object "java/lang/Object"]⟩]
  locals := [.uninitializedThis, .long]
  maxStack := 4
  maxLocals := 3

theorem finishes :
    ((Draft.constructor "st/Clock" [.long]).run steps).finish = .ok body := by
  decide +kernel

theorem slots_lt (taken : List Draft.Step) (h : taken <+: steps) :
    ((Draft.constructor "st/Clock" [.long]).run taken).stack.slots < 65536 := by
  have hall : ∀ taken ∈ steps.inits,
      ((Draft.constructor "st/Clock" [.long]).run taken).stack.slots < 65536 := by
    decide +kernel
  exact hall taken ((List.mem_inits taken steps).2 h)

end Clock

theorem maxStack_exact_clock :
    ((Draft.constructor "st/Clock" [.long]).run Clock.steps).finish = .ok Clock.body ∧
      ∃ flows, Clock.body.replay? (some "st/Clock") = some flows ∧
        (flows.map fun f => totalSlots f.stack).max? = some 4 :=
  ⟨Clock.finishes, Draft.finish_maxStack_exact (.constructor _ _ _) (by decide) (by decide)
    Clock.slots_lt Clock.finishes⟩

end SmalltalkJvm
