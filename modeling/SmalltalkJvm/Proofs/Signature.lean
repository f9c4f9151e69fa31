import Mathlib.Data.List.TakeWhile
import SmalltalkJvm.Proofs.Code

/-! # Signatures of the support library

The descriptors by which generated code calls the support library are put together from the names
of its classes, and any text may stand for a class. As long as no parameter's class holds the
character that ends its name, such a descriptor can be read if and only if all its names are legal,
and then it is read as the types it was written with.
-/

namespace SmalltalkJvm

inductive Parameter where
  | int
  | object (name : String)
  deriving DecidableEq, Repr, Inhabited

namespace Parameter

def text : Parameter → List Char
  | int => ['I']
  | object name => 'L' :: (name.toList ++ [';'])

def type : Parameter → FieldType
  | int => .int
  | object name => .reference name

def Plain : Parameter → Prop
  | int => True
  | object name => ';' ∉ name.toList

/-- The name of a class neither is empty nor ends its descriptor early. -/
def Legal : Parameter → Prop
  | int => True
  | object name => name ≠ "" ∧ ')' ∉ name.toList

end Parameter

/-- A support method takes some parameters and may return an object. -/
structure Signature where
  parameters : List Parameter
  result : Option String
  deriving DecidableEq, Repr, Inhabited

namespace Signature

def resultText : Option String → List Char
  | none => ['V']
  | some name => 'L' :: (name.toList ++ [';'])

def text (s : Signature) : List Char :=
  '(' :: (s.parameters.flatMap Parameter.text ++ ')' :: resultText s.result)

def descriptor (s : Signature) : MethodDescriptor :=
  ⟨s.parameters.map Parameter.type, s.result.map .reference⟩

def Plain (s : Signature) : Prop := ∀ p ∈ s.parameters, p.Plain

/-- All names can be read. That of the result may hold a closing bracket. -/
def Legal (s : Signature) : Prop :=
  (∀ p ∈ s.parameters, p.Legal) ∧ ∀ name, s.result = some name → name ≠ "" ∧ ';' ∉ name.toList

end Signature

namespace Descriptor

theorem bne_of_notMem {c : Char} {text : List Char} (h : c ∉ text) :
    ∀ x ∈ text, (x != c) = true := by
  intro x hx
  simp only [bne_iff_ne, ne_eq]
  rintro rfl
  exact h hx

/-- A text up to a character that it does not hold, and the rest. -/
theorem span_append {c : Char} {text : List Char} (h : c ∉ text) (rest : List Char) :
    (text ++ rest).takeWhile (· != c) = text ++ rest.takeWhile (· != c) ∧
      (text ++ rest).dropWhile (· != c) = rest.dropWhile (· != c) :=
  ⟨List.takeWhile_append_of_pos (bne_of_notMem h), List.dropWhile_append_of_pos (bne_of_notMem h)⟩

theorem scalar_object {name after : List Char} (hn : ';' ∉ name) :
    scalar ('L' :: (name ++ ';' :: after)) =
      if name = [] then .error .emptyName else .ok (.reference (String.ofList name), after) := by
  obtain ⟨htake, hdrop⟩ := span_append hn (';' :: after)
  rw [List.takeWhile_cons_of_neg (by simp), List.append_nil] at htake
  rw [List.dropWhile_cons_of_neg (by simp)] at hdrop
  simp only [scalar, htake, hdrop]
  cases name <;> simp

theorem scalar_unterminated {name : List Char} (hn : ';' ∉ name) :
    scalar ('L' :: name) = .error .unterminatedName := by
  have hdrop : name.dropWhile (· != ';') = [] := List.dropWhile_eq_nil_iff.2 (bne_of_notMem hn)
  simp only [scalar, hdrop]

theorem fieldType_of_letter {c : Char} {text : List Char} (hc : c ≠ '[') :
    fieldType (c :: text) = scalar (c :: text) := by
  have htake : (c :: text).takeWhile (· == '[') = [] := by simp [hc]
  simp only [fieldType, htake]

/-- The first of some types that are read one after the other. -/
theorem fieldTypes_cons {c : Char} {rest : List Char} {ts : List FieldType}
    (h : fieldTypes (c :: rest) = .ok ts) :
    ∃ t after ts', fieldType (c :: rest) = .ok (t, after) ∧ fieldTypes after = .ok ts' ∧
      ts = t :: ts' := by
  rw [fieldTypes] at h
  split at h
  · cases h
  · rename_i t after found
    split at h
    · cases h
    · rename_i ts' hts
      cases h
      exact ⟨t, after, ts', found, hts, rfl⟩

theorem fieldTypes_of_first {c : Char} {rest after : List Char} {t : FieldType}
    {ts : List FieldType} (hfirst : fieldType (c :: rest) = .ok (t, after))
    (hrest : fieldTypes after = .ok ts) : fieldTypes (c :: rest) = .ok (t :: ts) := by
  rw [fieldTypes]
  split
  · rename_i found
    rw [hfirst] at found
    cases found
  · rename_i found
    rw [hfirst] at found
    cases found
    rw [hrest]

/-- A parameter is read whole, if its class has a name. -/
theorem fieldType_parameter {p : Parameter} (hp : p.Plain) (rest : List Char) :
    fieldType (p.text ++ rest) =
      if p = .object "" then .error .emptyName else .ok (p.type, rest) := by
  cases p with
  | int => rfl
  | object name =>
    rw [Parameter.text, List.cons_append, List.append_assoc, List.singleton_append,
      fieldType_of_letter (by decide), scalar_object hp]
    simp [Parameter.type]

theorem exists_text_eq (p : Parameter) : ∃ c rest, p.text = c :: rest := by
  cases p with
  | int => exact ⟨_, _, rfl⟩
  | object name => exact ⟨_, _, rfl⟩

/-- One parameter before others. -/
theorem fieldTypes_parameter {p : Parameter} (hp : p.Plain) {rest : List Char}
    {ts : List FieldType} :
    fieldTypes (p.text ++ rest) = .ok ts ↔
      p ≠ .object "" ∧ ∃ ts', fieldTypes rest = .ok ts' ∧ ts = p.type :: ts' := by
  have hfirst := fieldType_parameter hp rest
  obtain ⟨c, tail, htext⟩ := exists_text_eq p
  rw [htext, List.cons_append] at hfirst ⊢
  constructor
  · intro h
    obtain ⟨t, after, ts', hread, hrest, rfl⟩ := fieldTypes_cons h
    rw [hfirst] at hread
    split_ifs at hread with hempty
    cases hread
    exact ⟨hempty, ts', hrest, rfl⟩
  · rintro ⟨hempty, ts', hrest, rfl⟩
    rw [if_neg hempty] at hfirst
    exact fieldTypes_of_first hfirst hrest

/-- A parameter that holds the closing bracket cannot be read up to it. -/
theorem fieldTypes_cut {p : Parameter} (hp : p.Plain) (hbracket : ')' ∈ p.text) (rest : List Char)
    (ts : List FieldType) : fieldTypes ((p.text ++ rest).takeWhile (· != ')')) ≠ .ok ts := by
  intro h
  cases p with
  | int => simp [Parameter.text] at hbracket
  | object name =>
    have hname : ')' ∈ name.toList := by simpa [Parameter.text] using hbracket
    have hcut : (Parameter.text (.object name) ++ rest).takeWhile (· != ')') =
        'L' :: name.toList.takeWhile (· != ')') := by
      rw [Parameter.text, List.cons_append, List.takeWhile_cons_of_pos (by decide),
        List.append_assoc, List.takeWhile_append, if_neg]
      intro hall
      have hmem := List.takeWhile_eq_self_iff.1
        ((List.takeWhile_prefix _).eq_of_length hall) ')' hname
      simp at hmem
    rw [hcut] at h
    obtain ⟨t, after, ts', hfirst, -, -⟩ := fieldTypes_cons h
    rw [fieldType_of_letter (by decide), scalar_unterminated] at hfirst
    · cases hfirst
    · exact fun hmem => hp (List.takeWhile_subset _ hmem)

theorem bracket_notMem_text {p : Parameter} (h : p.Legal) : ')' ∉ p.text := by
  cases p with
  | int => simp [Parameter.text]
  | object name => simpa [Parameter.text] using h.2

theorem bracket_mem_text {p : Parameter} (h : ¬p.Legal) : p = .object "" ∨ ')' ∈ p.text := by
  cases p with
  | int => exact absurd trivial h
  | object name =>
    by_cases hname : name = ""
    · exact .inl (by rw [hname])
    · refine .inr ?_
      by_contra hbracket
      exact h ⟨hname, fun hmem => hbracket (by simp [Parameter.text, hmem])⟩

/-- Parameters are read up to the closing bracket if and only if they are legal. -/
theorem fieldTypes_parameters {ps : List Parameter} (hp : ∀ p ∈ ps, p.Plain) (tail : List Char)
    {ts : List FieldType} :
    fieldTypes ((ps.flatMap Parameter.text ++ ')' :: tail).takeWhile (· != ')')) = .ok ts ↔
      (∀ p ∈ ps, p.Legal) ∧ ts = ps.map Parameter.type := by
  induction ps generalizing ts with
  | nil =>
    rw [List.flatMap_nil, List.nil_append, List.takeWhile_cons_of_neg (by simp), fieldTypes]
    simp [eq_comm]
  | cons p ps ih =>
    obtain ⟨hp₁, hps⟩ := List.forall_mem_cons.1 hp
    rw [List.flatMap_cons, List.append_assoc, List.forall_mem_cons, List.map_cons]
    by_cases hbracket : ')' ∈ p.text
    · refine iff_of_false (fieldTypes_cut hp₁ hbracket _ _) ?_
      rintro ⟨⟨hlegal, -⟩, -⟩
      exact bracket_notMem_text hlegal hbracket
    · rw [(span_append hbracket _).1, fieldTypes_parameter hp₁]
      constructor
      · rintro ⟨hempty, ts', hts', rfl⟩
        obtain ⟨hlegal, rfl⟩ := (ih hps).1 hts'
        refine ⟨⟨?_, hlegal⟩, rfl⟩
        by_contra hillegal
        exact (bracket_mem_text hillegal).elim hempty hbracket
      · rintro ⟨⟨hlegal, hothers⟩, rfl⟩
        refine ⟨?_, _, (ih hps).2 ⟨hothers, rfl⟩, rfl⟩
        rintro rfl
        exact hlegal.1 rfl

theorem dropWhile_parameters {ps : List Parameter} (hp : ∀ p ∈ ps, p.Legal) (tail : List Char) :
    (ps.flatMap Parameter.text ++ ')' :: tail).dropWhile (· != ')') = ')' :: tail := by
  have hbracket : ')' ∉ ps.flatMap Parameter.text := by
    intro hmem
    obtain ⟨p, hmemp, hmem⟩ := List.mem_flatMap.1 hmem
    exact bracket_notMem_text (hp p hmemp) hmem
  rw [(span_append hbracket _).2, List.dropWhile_cons_of_neg (by simp)]

/-- The class of a result is read whole, if its name is legal. -/
theorem single_object {name : String} (leftover : DescriptorFault) {t : FieldType} :
    single ('L' :: (name.toList ++ [';'])) leftover = .ok t ↔
      (name ≠ "" ∧ ';' ∉ name.toList) ∧ t = .reference name := by
  rw [single, fieldType_of_letter (by decide)]
  by_cases hname : ';' ∈ name.toList
  · refine iff_of_false ?_ fun h => h.1.2 hname
    obtain ⟨front, back, hsplit, hnot⟩ := List.eq_append_cons_of_mem hname
    rw [hsplit, List.append_assoc, List.cons_append, scalar_object hnot]
    split_ifs
    · simp
    · cases back <;> simp
  · rw [scalar_object hname]
    by_cases hempty : name = ""
    · simp [hempty]
    · rw [if_neg (by simpa using hempty), String.ofList_toList]
      simp [hempty, hname, @eq_comm _ t]

theorem parse_ok {descriptor : String} {text : List Char} {d : MethodDescriptor}
    (h : MethodDescriptor.parse descriptor = .ok d) (ht : descriptor.toList = text) :
    method text = .ok d := by
  rw [MethodDescriptor.parse, ht] at h
  cases hm : method text with
  | error fault =>
    rw [hm] at h
    cases h
  | ok d' =>
    rw [hm] at h
    cases h
    rfl

theorem method_ok {text : List Char} {d : MethodDescriptor} (h : method ('(' :: text) = .ok d) :
    ∃ result, text.dropWhile (· != ')') = ')' :: result ∧
      fieldTypes (text.takeWhile (· != ')')) = .ok d.parameters ∧
      (result = ['V'] ∧ d.result = none ∨
        result ≠ ['V'] ∧ ∃ t, single result .trailingReturn = .ok t ∧ d.result = some t) := by
  rw [method] at h
  split at h
  · cases h
  · rename_i c result hdrop
    have hc : c = ')' := by
      have hne : text.dropWhile (· != ')') ≠ [] := by simp [hdrop]
      simpa [hdrop] using List.head_dropWhile_not (· != ')') hne
    subst hc
    split at h
    · cases h
    · rename_i parameters hparameters
      refine ⟨result, hdrop, ?_⟩
      split_ifs at h with hv
      · cases h
        exact ⟨hparameters, .inl ⟨hv, rfl⟩⟩
      · split at h
        · cases h
        · rename_i t ht
          cases h
          exact ⟨hparameters, .inr ⟨hv, t, ht, rfl⟩⟩

/-- A text that ends the name of a class at most once, and then at its own end. -/
def EndsOnce (text : List Char) : Prop := ';' ∉ text ∨ ∃ name, text = name ++ [';'] ∧ ';' ∉ name

theorem EndsOnce.count_le {text : List Char} (h : EndsOnce text) : text.count ';' ≤ 1 := by
  rcases h with h | ⟨name, rfl, h⟩
  · simp [List.count_eq_zero_of_not_mem h]
  · simp [List.count_eq_zero_of_not_mem h]

theorem EndsOnce.eq_nil {text before after : List Char} (h : EndsOnce text)
    (ht : text = before ++ ';' :: after) : after = [] := by
  rcases h with h | ⟨name, rfl, h⟩
  · simp [ht] at h
  · rcases List.eq_nil_or_concat after with rfl | ⟨front, c, rfl⟩
    · rfl
    · have hlast : name ++ [';'] = (before ++ ';' :: front) ++ [c] := by simpa using ht
      rw [(List.append_inj' hlast rfl).1] at h
      simp at h

theorem scalar_used {text after : List Char} {t : FieldType} (h : scalar text = .ok (t, after)) :
    ∃ used, text = used ++ after ∧ EndsOnce used := by
  have hletter {c : Char} {rest : List Char} {t' : FieldType} (hc : c ≠ ';')
      (h : (.ok (t', rest) : Except DescriptorFault _) = .ok (t, after)) :
      ∃ used, c :: rest = used ++ after ∧ EndsOnce used := by
    cases h
    exact ⟨[c], rfl, .inl (by simpa using hc.symm)⟩
  unfold scalar at h
  split at h
  case h_10 rest =>
    split at h
    · cases h
    · rename_i c tail hdrop
      split at h
      · cases h
      · cases h
        have hc : c = ';' := by
          have hne : rest.dropWhile (· != ';') ≠ [] := by simp [hdrop]
          simpa [hdrop] using List.head_dropWhile_not (· != ';') hne
        subst hc
        refine ⟨'L' :: (rest.takeWhile (· != ';') ++ [';']), ?_, .inr ⟨'L' :: _, rfl, ?_⟩⟩
        · rw [List.cons_append, List.append_assoc, List.singleton_append, ← hdrop,
            List.takeWhile_append_dropWhile]
        · simp only [List.mem_cons, Char.reduceEq, false_or]
          intro hmem
          simpa using List.mem_takeWhile_imp hmem
  all_goals first | cases h; done | exact hletter (by decide) h

theorem fieldType_used {text after : List Char} {t : FieldType}
    (h : fieldType text = .ok (t, after)) : ∃ used, text = used ++ after ∧ EndsOnce used := by
  unfold fieldType at h
  split at h
  · exact scalar_used h
  · split at h
    · cases h
    · rename_i hscalar
      cases h
      obtain ⟨used, hused, hends⟩ := scalar_used hscalar
      have hbrackets : ';' ∉ text.takeWhile (· == '[') := fun hmem => by
        simpa using List.mem_takeWhile_imp hmem
      refine ⟨text.takeWhile (· == '[') ++ used, ?_, ?_⟩
      · rw [List.append_assoc, ← hused, List.takeWhile_append_dropWhile]
      · rcases hends with hends | ⟨name, rfl, hname⟩
        · exact .inl (by simp [hbrackets, hends])
        · exact .inr ⟨text.takeWhile (· == '[') ++ name, by simp, by simp [hbrackets, hname]⟩

/-- Every end of a class name is the end of a type of its own. -/
theorem count_le_length_fieldTypes {text : List Char} {ts : List FieldType}
    (h : fieldTypes text = .ok ts) : text.count ';' ≤ ts.length := by
  induction hn : text.length using Nat.strong_induction_on generalizing text ts with
  | _ n ih =>
    cases text with
    | nil => simp
    | cons c rest =>
      obtain ⟨t, after, ts', hfirst, hrest, rfl⟩ := fieldTypes_cons h
      have hshorter := fieldType_length hfirst
      obtain ⟨used, hused, hends⟩ := fieldType_used hfirst
      have hafter := ih after.length (hn ▸ hshorter) hrest rfl
      have hone := hends.count_le
      rw [hused, List.count_append, List.length_cons]
      omega

/-- A descriptor whose parameters end with a class name: if it can be read, none of them holds the
closing bracket, and each end of a name ends a parameter. -/
theorem method_parameters {parameters result : List Char} {d : MethodDescriptor}
    (h : method ('(' :: (parameters ++ ';' :: ')' :: result)) = .ok d) :
    ')' ∉ parameters ∧ parameters.count ';' + 1 ≤ d.parameters.length ∧
      (result = ['V'] → d.result = none) := by
  obtain ⟨read, hdrop, htypes, hresult⟩ := method_ok h
  by_cases hbracket : ')' ∈ parameters
  · exfalso
    obtain ⟨inner, outer, hsplit, hnot⟩ := List.eq_append_cons_of_mem hbracket
    have hread : read = outer ++ ';' :: ')' :: result := by
      rw [hsplit, List.append_assoc, (span_append hnot _).2, List.cons_append,
        List.dropWhile_cons_of_neg (by simp)] at hdrop
      exact (List.cons.inj hdrop).2.symm
    rcases hresult with ⟨hv, -⟩ | ⟨-, t, hsingle, -⟩
    · rw [hread] at hv
      have hlength := congrArg List.length hv
      simp only [List.length_append, List.length_cons, List.length_nil] at hlength
      omega
    · unfold single at hsingle
      split at hsingle
      · cases hsingle
      · rename_i htype
        obtain ⟨used, hused, hends⟩ := fieldType_used htype
        rw [List.append_nil, hread] at hused
        simpa using hends.eq_nil hused.symm
      · cases hsingle
  · have hwhole : ')' ∉ parameters ++ [';'] := by simp [hbracket]
    have htext : parameters ++ ';' :: ')' :: result = (parameters ++ [';']) ++ ')' :: result := by
      simp
    rw [htext, (span_append hwhole _).2, List.dropWhile_cons_of_neg (by simp)] at hdrop
    rw [htext, (span_append hwhole _).1, List.takeWhile_cons_of_neg (by simp),
      List.append_nil] at htypes
    obtain rfl := (List.cons.inj hdrop).2
    have hcount := count_le_length_fieldTypes htypes
    rw [List.count_append] at hcount
    refine ⟨hbracket, by simpa using hcount, fun hv => ?_⟩
    rcases hresult with ⟨-, hnone⟩ | ⟨hne, -⟩
    · exact hnone
    · exact absurd hv hne

end Descriptor

namespace Signature

/-- A descriptor can be read if and only if its names are legal, and then it is read as the types
it was written with. -/
theorem parse_iff {s : Signature} (hs : s.Plain) {descriptor : String}
    (ht : descriptor.toList = s.text) {d : MethodDescriptor} :
    MethodDescriptor.parse descriptor = .ok d ↔ s.Legal ∧ d = s.descriptor := by
  constructor
  · intro h
    obtain ⟨result, hdrop, hparameters, hresult⟩ := Descriptor.method_ok (Descriptor.parse_ok h ht)
    obtain ⟨hlegal, htypes⟩ := (Descriptor.fieldTypes_parameters hs _).1 hparameters
    obtain rfl : result = resultText s.result := by
      rw [Descriptor.dropWhile_parameters hlegal] at hdrop
      exact (List.cons.inj hdrop).2.symm
    obtain ⟨parameters, read⟩ := d
    obtain rfl : parameters = s.parameters.map Parameter.type := htypes
    cases hsr : s.result with
    | none =>
      rw [hsr] at hresult
      rcases hresult with ⟨-, hnone⟩ | ⟨hv, -⟩
      · refine ⟨⟨hlegal, by simp [hsr]⟩, ?_⟩
        simp only at hnone
        simp [Signature.descriptor, hsr, hnone]
      · exact absurd rfl hv
    | some name =>
      rw [hsr] at hresult
      rcases hresult with ⟨hv, -⟩ | ⟨-, t, hsingle, hsome⟩
      · simp [resultText] at hv
      · obtain ⟨hname, rfl⟩ := (Descriptor.single_object _).1 hsingle
        refine ⟨⟨hlegal, ?_⟩, ?_⟩
        · rintro name' hname'
          rw [hsr] at hname'
          cases hname'
          exact hname
        · simp only at hsome
          simp [Signature.descriptor, hsr, hsome]
  · rintro ⟨⟨hlegal, hresult⟩, rfl⟩
    have hparameters := (Descriptor.fieldTypes_parameters hs (resultText s.result)).2 ⟨hlegal, rfl⟩
    have hdrop := Descriptor.dropWhile_parameters hlegal (resultText s.result)
    have hmethod : Descriptor.method s.text = .ok s.descriptor := by
      simp only [text, Descriptor.method, hdrop, hparameters]
      cases hsr : s.result with
      | none => simp [resultText, Signature.descriptor, hsr]
      | some name =>
        rw [if_neg (by simp [resultText])]
        have hsingle := (Descriptor.single_object .trailingReturn).2 ⟨hresult name hsr, rfl⟩
        simp only [resultText, hsingle]
        simp [Signature.descriptor, hsr]
    rw [MethodDescriptor.parse, ht, hmethod]
    rfl

/-- A descriptor that can be read has the parameters it was written with. -/
theorem parse {s : Signature} (hs : s.Plain) {descriptor : String}
    (ht : descriptor.toList = s.text) {d : MethodDescriptor}
    (h : MethodDescriptor.parse descriptor = .ok d) :
    d.parameters.length = s.parameters.length ∧ d.result.isSome = s.result.isSome ∧
      ∀ t, d.result = some t → t.isReference = true := by
  obtain ⟨-, rfl⟩ := (parse_iff hs ht).1 h
  refine ⟨by simp [Signature.descriptor], by simp [Signature.descriptor], fun t htype => ?_⟩
  obtain ⟨name, -, rfl⟩ := Option.map_eq_some_iff.1 htype
  rfl

end Signature

end SmalltalkJvm
