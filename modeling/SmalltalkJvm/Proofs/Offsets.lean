import Mathlib.Algebra.GroupWithZero.Nat
import Mathlib.Data.List.Induction
import SmalltalkJvm.Jvm.Layout
import SmalltalkJvm.Proofs.Actions

/-! # Offsets in laid out code

Where a layout puts the instructions of a list: each after the bytes of those before it. A label
has the offset of its last mark, so every label that is marked has an offset, and no other has.
-/

namespace SmalltalkJvm

def codeSize (code : List Linked) : Nat := (code.map Linked.size).sum

@[simp] theorem codeSize_nil : codeSize [] = 0 := rfl

@[simp] theorem codeSize_cons (i : Linked) (code : List Linked) :
    codeSize (i :: code) = i.size + codeSize code := by simp [codeSize]

@[simp] theorem codeSize_append (code code' : List Linked) :
    codeSize (code ++ code') = codeSize code + codeSize code' := by simp [codeSize]

/-- Linked code from an offset on, each instruction with its own offset. -/
def withOffsets (pc : Nat) : List Linked → List (Nat × Linked)
  | [] => []
  | i :: code => (pc, i) :: withOffsets (pc + i.size) code

theorem withOffsets_append (pc : Nat) (code code' : List Linked) :
    withOffsets pc (code ++ code') =
      withOffsets pc code ++ withOffsets (pc + codeSize code) code' := by
  induction code generalizing pc with
  | nil => simp [withOffsets]
  | cons i code ih => simp [withOffsets, ih, Nat.add_assoc]

theorem getElem?_withOffsets (pc : Nat) (code : List Linked) (i : Nat) :
    (withOffsets pc code)[i]? = code[i]?.map fun k => (pc + codeSize (code.take i), k) := by
  induction code generalizing pc i with
  | nil => simp [withOffsets]
  | cons k code ih =>
    cases i with
    | zero => simp [withOffsets]
    | succ i => simp [withOffsets, ih, Nat.add_assoc]

namespace Layout

variable {code : List Linked}

theorem ofList_concat (code : List Linked) (i : Linked) :
    ofList (code ++ [i]) = (ofList code).add i := by
  simp [ofList]

@[simp] theorem size_ofList (code : List Linked) : (ofList code).size = codeSize code := by
  induction code using List.reverseRecOn with
  | nil => rfl
  | append_singleton code i ih => simp [ofList_concat, add, ih]

theorem placed_ofList (code : List Linked) :
    (ofList code).placed.toList = withOffsets 0 code := by
  induction code using List.reverseRecOn with
  | nil => rfl
  | append_singleton code i ih =>
    rw [ofList_concat, withOffsets_append, ← ih]
    simp [add, withOffsets]

theorem offsetOf?_ofList (code : List Linked) (i : Nat) :
    (ofList code).offsetOf? i = code[i]?.map fun _ => codeSize (code.take i) := by
  rw [offsetOf?, ← Array.getElem?_toList, placed_ofList, getElem?_withOffsets]
  simp [Function.comp_def]

theorem labels_add_of_ne (l : Layout) {i : Linked} {label : Label} (h : i ≠ .mark label) :
    (l.add i).labels[label]? = l.labels[label]? := by
  cases i with
  | mark other =>
    have hne : other ≠ label := fun he => h (by rw [he])
    simp [add, Std.HashMap.getElem?_insert, hne]
  | _ => rfl

theorem labels_add_mark (l : Layout) (label : Label) :
    (l.add (.mark label)).labels[label]? = some l.size := by
  simp [add]

theorem labels_ofList_append {label : Label} (code : List Linked) {after : List Linked}
    (h : .mark label ∉ after) :
    (ofList (code ++ after)).labels[label]? = (ofList code).labels[label]? := by
  induction after using List.reverseRecOn with
  | nil => rw [List.append_nil]
  | append_singleton after i ih =>
    simp only [List.mem_append, List.mem_singleton, not_or] at h
    rw [← List.append_assoc, ofList_concat, labels_add_of_ne _ (Ne.symm h.2), ih h.1]

theorem labels_ofList_of_notMem {label : Label} (h : .mark label ∉ code) :
    (ofList code).labels[label]? = none := by
  have := labels_ofList_append [] h
  rw [List.nil_append] at this
  rw [this]
  simp [ofList]

/-- The last mark of a label decides. -/
theorem labels_ofList {label : Label} (before : List Linked) {after : List Linked}
    (h : .mark label ∉ after) :
    (ofList (before ++ .mark label :: after)).labels[label]? = some (codeSize before) := by
  rw [List.append_cons, labels_ofList_append _ h, ofList_concat, labels_add_mark, size_ofList]

theorem exists_last_mark {label : Label} (h : .mark label ∈ code) :
    ∃ before after, code = before ++ .mark label :: after ∧ .mark label ∉ after := by
  obtain ⟨after, before, hsplit, hafter⟩ := List.eq_append_cons_of_mem (List.mem_reverse.2 h)
  refine ⟨before.reverse, after.reverse, ?_, fun hm => hafter (List.mem_reverse.1 hm)⟩
  rw [← List.reverse_reverse code, hsplit]
  simp

/-- An offset that a layout knows is that of a mark. -/
theorem offset_ok {method : String} {label : Label} {pc : Nat}
    (h : (ofList code).offset method label = .ok pc) :
    ∃ before after, code = before ++ .mark label :: after ∧ .mark label ∉ after ∧
      pc = codeSize before := by
  by_cases hmem : .mark label ∈ code
  · obtain ⟨before, after, hcode, hafter⟩ := exists_last_mark hmem
    refine ⟨before, after, hcode, hafter, ?_⟩
    rw [offset, hcode, labels_ofList _ hafter] at h
    cases h
    rfl
  · rw [offset, labels_ofList_of_notMem hmem] at h
    cases h

theorem exists_offset {label : Label} (method : String) (h : .mark label ∈ code) :
    ∃ pc, (ofList code).offset method label = .ok pc := by
  obtain ⟨before, after, hcode, hafter⟩ := exists_last_mark h
  exact ⟨codeSize before, by rw [offset, hcode, labels_ofList _ hafter]⟩

theorem offset_le {method : String} {label : Label} {pc : Nat}
    (h : (ofList code).offset method label = .ok pc) : pc ≤ codeSize code := by
  obtain ⟨before, after, rfl, -, rfl⟩ := offset_ok h
  simp

/-- The code array is the instructions' bytes, one after the other. -/
theorem code_ok {method : String} {bytes : List UInt8}
    (h : (ofList code).code method = .ok bytes) :
    ∃ parts, List.Forall₂ (fun x part => x.2.bytes (ofList code) method x.1 = .ok part)
      (withOffsets 0 code) parts ∧ bytes = parts.flatten := by
  obtain ⟨parts, hparts, h⟩ := except_bind_ok h
  cases h
  rw [placed_ofList] at hparts
  exact ⟨parts, except_mapM_ok hparts, rfl⟩

end Layout

/-- The bytes of an instruction are as many as its size says. -/
theorem Linked.length_bytes {l : Layout} {method : String} {pc : Nat} {i : Linked}
    {bytes : List UInt8} (h : i.bytes l method pc = .ok bytes) : bytes.length = i.size := by
  cases i with
  | plain op =>
    cases h
    rfl
  | push op value =>
    simp only [Linked.bytes] at h
    split_ifs at h with hop <;> cases h <;> simp [size, hop]
  | constant index =>
    simp only [Linked.bytes] at h
    split_ifs at h with hindex <;> cases h <;> simp [size, hindex]
  | slot op index =>
    cases h
    simp only [slotBytes, size]
    split_ifs <;> rfl
  | pooled op index | dynamic index =>
    cases h
    rfl
  | interfaceCall index descriptor =>
    simp only [Linked.bytes] at h
    split at h <;> cases h
    rfl
  | jump op target =>
    simp only [Linked.bytes] at h
    split at h
    · split_ifs at h
      cases h
      rfl
    · cases h
  | mark label =>
    cases h
    rfl
  | line number =>
    simp only [Linked.bytes] at h
    split_ifs at h
    cases h
    rfl

/-- The code array is as long as the layout says. -/
theorem Layout.length_code {code : List Linked} {method : String} {bytes : List UInt8}
    (h : (ofList code).code method = .ok bytes) : bytes.length = codeSize code := by
  obtain ⟨parts, hparts, rfl⟩ := code_ok h
  rw [List.length_flatten, codeSize]
  clear h
  generalize ofList code = layout at hparts
  generalize 0 = pc at hparts
  induction code generalizing pc parts with
  | nil =>
    cases hparts
    rfl
  | cons i code ih =>
    obtain _ | ⟨hfirst, hrest⟩ := hparts
    rw [List.map_cons, List.map_cons, List.sum_cons, List.sum_cons, ih _ _ hrest,
      Linked.length_bytes hfirst]

end SmalltalkJvm
