import SmalltalkJvm.Proofs.StepSequences

/-! # Slots of local variables

A body declares the slots that its variables take in the end, and the variables on entry stay in the
list, whatever becomes of them. So every variable that is read or set lies below the declared
number. A variable may take fewer slots in the end than on entry, but only if an instruction of the
body sets it, and each such variable lacks one slot in the declared number.
-/

namespace SmalltalkJvm

theorem VerificationType.slots_range (t : VerificationType) : 1 ≤ t.slots ∧ t.slots ≤ 2 := by
  cases t <;> simp [slots]

theorem length_le_of_getElem? {types types' : List VerificationType}
    (h : ∀ (place : Nat) t, types[place]? = some t → ∃ t', types'[place]? = some t') :
    types.length ≤ types'.length := by
  by_contra hlt
  obtain ⟨t', ht'⟩ := h _ _ (List.getElem?_eq_getElem (Nat.lt_of_not_le hlt))
  exact absurd (List.getElem?_eq_some_iff.1 ht').1 (Nat.lt_irrefl _)

namespace Flow

variable {f f' : Flow} {this : Option String}

theorem slots_complete (f : Flow) {old new : VerificationType} (h : new.slots = old.slots) :
    (f.complete old new).locals.map VerificationType.slots =
      f.locals.map VerificationType.slots := by
  rw [complete, List.map_map]
  exact List.map_congr_left fun t _ => VerificationType.slots_completed h t

theorem slots_construct (f : Flow) (this : Option String) (owner : String)
    (t : VerificationType) :
    (f.construct this owner t).locals.map VerificationType.slots =
      f.locals.map VerificationType.slots := by
  cases t with
  | uninitializedThis => exact f.slots_complete rfl
  | uninitialized creation => exact f.slots_complete rfl
  | _ => rfl

theorem slots_receive? {op : Opcode} {method : MemberRef}
    (h : f.receive? this op method = some f') :
    f'.locals.map VerificationType.slots = f.locals.map VerificationType.slots := by
  unfold receive? at h
  split_ifs at h
  · cases h
    rfl
  · split at h
    · cases h
      exact slots_construct _ _ _ _
    · cases h
  · split at h
    · cases h
      rfl
    · cases h

theorem length_assign (f : Flow) (index : Nat) (t : VerificationType) :
    (f.assign index t).locals.length = max f.locals.length (index + 1) := by
  simp only [assign, List.length_set, List.length_append, List.length_replicate]
  omega

/-- Setting a variable leaves the others alone. -/
theorem getElem?_assign {index other : Nat} (hne : other ≠ index)
    (hother : other < f.locals.length) (t : VerificationType) :
    (f.assign index t).locals[other]? = f.locals[other]? := by
  rw [assign, List.getElem?_set_ne hne.symm, List.getElem?_append_left hother]

end Flow

namespace Instruction

variable {f f' : Flow} {this : Option String} {place : Nat} {i : Instruction}

/-- Only setting a variable changes what a variable takes. -/
theorem slots_of_effect? (hi : ∀ index, i ≠ .slot .astore index)
    (h : i.effect? this place f = some f') :
    f'.locals.map VerificationType.slots = f.locals.map VerificationType.slots := by
  cases hkeeps : i.keepsLocals with
  | true => rw [effect?_locals hkeeps h]
  | false =>
    unfold keepsLocals at hkeeps
    split at hkeeps
    · exact absurd rfl (hi _)
    · obtain ⟨d, f₁, f₂, -, hdrop, hreceive, rfl⟩ := effect?_invoke place h
      rw [Flow.locals_pushResult, Flow.slots_receive? hreceive, Flow.locals_drop? hdrop]
    · cases hkeeps

theorem astore_effect? {index : UInt16} (h : (slot .astore index).effect? this place f = some f') :
    ∃ t rest, f' = { f with stack := rest }.assign index.toNat t := by
  simp only [effect?] at h
  split at h
  · cases h
    exact ⟨_, _, rfl⟩
  · cases h

/-- A variable stays, and what it takes changes only if it is set. -/
theorem exists_kept_of_effect? (h : i.effect? this place f = some f') {index : Nat}
    {t : VerificationType} (ht : f.locals[index]? = some t) :
    ∃ t', f'.locals[index]? = some t' ∧
      (t'.slots = t.slots ∨ ∃ set : UInt16, set.toNat = index ∧ i = .slot .astore set) := by
  have hlt := (List.getElem?_eq_some_iff.1 ht).1
  by_cases hstore : ∃ set, i = .slot .astore set
  · obtain ⟨set, rfl⟩ := hstore
    obtain ⟨t', rest, rfl⟩ := astore_effect? h
    by_cases hset : index = set.toNat
    · have hnew : index < (Flow.assign ⟨rest, f.locals⟩ set.toNat t').locals.length := by
        rw [Flow.length_assign]
        omega
      exact ⟨_, List.getElem?_eq_getElem hnew, .inr ⟨set, hset.symm, rfl⟩⟩
    · refine ⟨t, ?_, .inl rfl⟩
      exact (Flow.getElem?_assign (f := ⟨rest, f.locals⟩) hset hlt t').trans ht
  · have hslots := slots_of_effect? (fun set hset => hstore ⟨set, hset⟩) h
    have hindex : (f'.locals[index]?).map VerificationType.slots = some t.slots := by
      rw [← List.getElem?_map, hslots, List.getElem?_map, ht]
      rfl
    obtain ⟨t', ht', hsame⟩ := Option.map_eq_some_iff.1 hindex
    exact ⟨t', ht', .inl hsame⟩

/-- A variable that an instruction reads or sets is there behind it. -/
theorem lt_of_slot_effect? {op : Opcode} {index : UInt16}
    (h : (slot op index).effect? this place f = some f') : index.toNat < f'.locals.length := by
  cases op
  case aload =>
    obtain ⟨t, ht, rfl⟩ := Option.map_eq_some_iff.1 h
    exact (List.getElem?_eq_some_iff.1 ht).1
  case astore =>
    obtain ⟨t, rest, rfl⟩ := astore_effect? h
    rw [Flow.length_assign]
    omega
  all_goals cases h

end Instruction

namespace Draft

variable {d d' : Draft}

/-- The code reads and sets only variables that are there, and a variable that takes another number
of slots than on entry has been set. -/
structure Slotted (d : Draft) : Prop where
  accessed : ∀ op index, .slot op index ∈ d.code.toList → index.toNat < d.locals.length
  kept : ∀ place t, d.entryLocals[place]? = some t → ∃ t', d.locals[place]? = some t' ∧
    (t'.slots = t.slots ∨
      ∃ index : UInt16, index.toNat = place ∧ .slot .astore index ∈ d.code.toList)

theorem IsNew.slotted (h : d.IsNew) : d.Slotted := by
  refine ⟨fun op index hmem => ?_, fun place t ht => ⟨t, by rwa [h.locals], .inl rfl⟩⟩
  simp [h.code] at hmem

/-- Code that is added may set variables and read those that are there. -/
theorem Slotted.append (h : d.Slotted) (more : List Instruction)
    (hcode : d'.code.toList = d.code.toList ++ more) (hentry : d'.entryLocals = d.entryLocals)
    (hadded : ∀ op index, .slot op index ∈ more → index.toNat < d'.locals.length)
    (hlocals : ∀ place t, d.locals[place]? = some t → ∃ t', d'.locals[place]? = some t' ∧
      (t'.slots = t.slots ∨ ∃ index : UInt16, index.toNat = place ∧ .slot .astore index ∈ more)) :
    d'.Slotted := by
  have hlength := length_le_of_getElem? fun place t ht => (hlocals place t ht).imp fun _ h => h.1
  refine ⟨fun op index hmem => ?_, fun place t ht => ?_⟩
  · rw [hcode, List.mem_append] at hmem
    rcases hmem with hmem | hmem
    · exact Nat.lt_of_lt_of_le (h.accessed op index hmem) hlength
    · exact hadded op index hmem
  · rw [hentry] at ht
    obtain ⟨old, hold, hkept⟩ := h.kept place t ht
    obtain ⟨new, hnew, hset⟩ := hlocals place old hold
    refine ⟨new, hnew, ?_⟩
    rw [hcode]
    rcases hset with hsame | ⟨index, hindex, hmem⟩
    · rw [hsame]
      exact hkept.imp_right fun ⟨index, hindex, hmem⟩ =>
        ⟨index, hindex, List.mem_append_left _ hmem⟩
    · exact .inr ⟨index, hindex, List.mem_append_right _ hmem⟩

theorem Slotted.step (h : d.Slotted) {s : Step} (hf : (d.step s).fault = none) :
    (d.step s).Slotted := by
  rcases step_adds hf with ⟨hvariables, hcode⟩ | ⟨i, -, hi⟩
  · have hsame (place : Nat) (t : VerificationType) (ht : d.locals[place]? = some t) :
        (d.step s).locals[place]? = some t := by
      rwa [hvariables.locals]
    rcases hcode with hcode | ⟨i, hi, hcode⟩
    · exact h.append [] (by rw [hcode, List.append_nil]) hvariables.entryLocals (by simp)
        fun place t ht => ⟨t, hsame place t ht, .inl rfl⟩
    · refine h.append [i] (by rw [hcode, Array.toList_push]) hvariables.entryLocals ?_
        fun place t ht => ⟨t, hsame place t ht, .inl rfl⟩
      intro op index hmem
      obtain rfl := List.mem_singleton.1 hmem
      cases isStraight_of_adds? hi
  · refine h.append [i] (by rw [hi.code, Array.toList_push]) hi.entryLocals ?_ ?_
    · intro op index hmem
      obtain rfl := List.mem_singleton.1 hmem
      exact Instruction.lt_of_slot_effect? hi.effect
    · intro place t ht
      obtain ⟨t', ht', hset⟩ := Instruction.exists_kept_of_effect? hi.effect ht
      exact ⟨t', ht', hset.imp_right fun ⟨set, hset, heq⟩ =>
        ⟨set, hset, List.mem_singleton.2 heq.symm⟩⟩

theorem Slotted.run (h : d.Slotted) {steps : List Step} (hf : (d.run steps).fault = none) :
    (d.run steps).Slotted :=
  run_induction (fun h hf => h.step hf) h hf

end Draft

/-- The places of the variables that take fewer slots than on entry, numbered from the one given. -/
def narrowed (place : Nat) : List VerificationType → List VerificationType → List Nat
  | t :: entry, t' :: locals =>
    if t'.slots < t.slots then place :: narrowed (place + 1) entry locals
    else narrowed (place + 1) entry locals
  | _, _ => []

theorem length_le_totalSlots (types : List VerificationType) :
    types.length ≤ totalSlots types := by
  induction types with
  | nil => exact Nat.le_refl 0
  | cons t types ih =>
    have := t.slots_range
    rw [List.length_cons, totalSlots_cons]
    omega

/-- A variable lacks at most one slot. -/
theorem totalSlots_le_add_narrowed {entry locals : List VerificationType}
    (h : entry.length ≤ locals.length) (place : Nat) :
    totalSlots entry ≤ totalSlots locals + (narrowed place entry locals).length := by
  induction entry generalizing locals place with
  | nil => exact Nat.zero_le _
  | cons t entry ih =>
    cases locals with
    | nil => cases h
    | cons t' locals =>
      have hrest := ih (Nat.le_of_succ_le_succ h) (place + 1)
      have hentry := t.slots_range
      have hlocal := t'.slots_range
      rw [narrowed, totalSlots_cons, totalSlots_cons]
      split_ifs
      · rw [List.length_cons]
        omega
      · omega

theorem mem_narrowed {entry locals : List VerificationType} {place i : Nat}
    (h : i ∈ narrowed place entry locals) : ∃ n t t', i = place + n ∧ entry[n]? = some t ∧
      locals[n]? = some t' ∧ t'.slots < t.slots := by
  induction entry generalizing locals place with
  | nil => cases h
  | cons t entry ih =>
    cases locals with
    | nil => cases h
    | cons t' locals =>
      have hlater (hrest : i ∈ narrowed (place + 1) entry locals) :
          ∃ n t₁ t₂, i = place + n ∧ (t :: entry)[n]? = some t₁ ∧
            (t' :: locals)[n]? = some t₂ ∧ t₂.slots < t₁.slots := by
        obtain ⟨n, t₁, t₂, hi, ht₁, ht₂, hlt⟩ := ih hrest
        exact ⟨n + 1, t₁, t₂, by omega, ht₁, ht₂, hlt⟩
      rw [narrowed] at h
      split_ifs at h with hlt
      · rcases List.mem_cons.1 h with rfl | h
        · exact ⟨0, t, t', rfl, rfl, rfl, hlt⟩
        · exact hlater h
      · exact hlater h

/-- Whatever steps a body is built by, if its variables take fewer than 65536 slots in the end, it
has the variables on entry and declares more slots than any place that it reads or sets. The
declared slots suffice for the variables on entry but for one slot of each that takes fewer in the
end, and the body sets each of these. -/
theorem Draft.finish_maxLocals_sufficient {d : Draft} (hd : d.IsNew) {steps : List Step}
    (hslots : totalSlots (d.run steps).locals < 65536) {b : MethodBody}
    (h : (d.run steps).finish = .ok b) :
    b.locals = d.entryLocals ∧
      (∀ op index, .slot op index ∈ b.instructions → index.toNat < b.maxLocals.toNat) ∧
      totalSlots b.locals ≤
        b.maxLocals.toNat + (narrowed 0 b.locals (d.run steps).locals).length ∧
      ∀ place ∈ narrowed 0 b.locals (d.run steps).locals,
        ∃ index : UInt16, index.toNat = place ∧ .slot .astore index ∈ b.instructions := by
  have hfinishes := finishes_of_finish h
  have hslotted := hd.slotted.run hfinishes.fault
  have hmax : b.maxLocals.toNat = totalSlots (d.run steps).locals := by
    rw [hfinishes.maxLocals, Nat.toUInt16, UInt16.toNat_ofNat', Nat.mod_eq_of_lt hslots]
  have hlength : b.locals.length ≤ (d.run steps).locals.length := by
    rw [hfinishes.locals]
    exact length_le_of_getElem? fun place t ht => (hslotted.kept place t ht).imp fun _ h => h.1
  rw [hmax]
  refine ⟨hfinishes.locals.trans (entryLocals_run hfinishes.fault), fun op index hmem => ?_,
    totalSlots_le_add_narrowed hlength 0, fun place hplace => ?_⟩
  · rw [hfinishes.instructions] at hmem
    exact Nat.lt_of_lt_of_le (hslotted.accessed op index hmem) (length_le_totalSlots _)
  · obtain ⟨n, t, t', hn, ht, ht', hlt⟩ := mem_narrowed hplace
    obtain rfl : place = n := by omega
    rw [hfinishes.locals] at ht
    obtain ⟨last, hlast, hset⟩ := hslotted.kept place t ht
    obtain rfl : last = t' := Option.some.inj (hlast.symm.trans ht')
    rw [hfinishes.instructions]
    exact hset.resolve_left (Nat.ne_of_lt hlt)

namespace Overwrite

/-- Sets a variable behind a gap, then the first one, which is wide on entry. -/
def steps : List Draft.Step :=
  [.load 1, .store 4, .plain .aconstNull, .store 0, .load 4, .plain .areturn]

def body : MethodBody where
  instructions := [.slot .aload 1, .slot .astore 4, .plain .aconstNull, .slot .astore 0,
    .slot .aload 4, .plain .areturn]
  handlers := []
  frames := []
  locals := [.long, .object "st/Greeter"]
  maxStack := 1
  maxLocals := 5

theorem finishes :
    ((Draft.method [.long, .object "st/Greeter"]).run steps).finish = .ok body := by
  decide +kernel

theorem locals_run : ((Draft.method [.long, .object "st/Greeter"]).run steps).locals =
    [.null, .object "st/Greeter", .top, .top, .object "st/Greeter"] := by
  decide +kernel

end Overwrite

theorem maxLocals_sufficient_overwrite :
    ((Draft.method [.long, .object "st/Greeter"]).run Overwrite.steps).finish =
        .ok Overwrite.body ∧
      (∀ op index, .slot op index ∈ Overwrite.body.instructions → index.toNat < 5) ∧
      totalSlots Overwrite.body.locals ≤ 5 + [0].length ∧
      ∀ place ∈ [0], ∃ index : UInt16, index.toNat = place ∧
        .slot .astore index ∈ Overwrite.body.instructions := by
  have h := Draft.finish_maxLocals_sufficient (.method _ _)
    (by rw [Overwrite.locals_run]; decide) Overwrite.finishes
  rw [Overwrite.locals_run] at h
  exact ⟨Overwrite.finishes, h.2⟩

/-- Setting the only variable, which is wide on entry, leaves too few slots for it. -/
theorem maxLocals_lt_entry_slots :
    ∃ b, ((Draft.method [.long]).run [.plain .aconstNull, .store 0, .plain .aconstNull,
        .plain .areturn]).finish = .ok b ∧
      b.locals = [.long] ∧ b.maxLocals = 1 ∧ b.maxLocals.toNat < totalSlots b.locals :=
  ⟨{ instructions := [.plain .aconstNull, .slot .astore 0, .plain .aconstNull, .plain .areturn]
     handlers := []
     frames := []
     locals := [.long]
     maxStack := 1
     maxLocals := 1 }, by decide +kernel, rfl, rfl, by decide⟩

end SmalltalkJvm
