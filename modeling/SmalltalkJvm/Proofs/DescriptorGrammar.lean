import Mathlib.Algebra.GroupWithZero.Nat
import SmalltalkJvm.Proofs.Signature

/-! # The grammar of descriptors

A type is a letter, the name of a class between `L` and `;`, or a type behind an opening bracket. A
method takes a run of types and returns one or nothing. The terms of this grammar are trees, each of
which is spelled in one way.

A descriptor can be read if and only if it spells a term, it spells no other term then, and it is
read as what the term denotes. The text of the parameters ends at the first closing bracket, so the
terms of methods have no parameter that holds one.
-/

namespace SmalltalkJvm

inductive BaseType where
  | boolean | byte | char | short | int | float | long | double
  deriving DecidableEq, Repr

namespace BaseType

def letter : BaseType → Char
  | boolean => 'Z'
  | byte => 'B'
  | char => 'C'
  | short => 'S'
  | int => 'I'
  | float => 'F'
  | long => 'J'
  | double => 'D'

def type : BaseType → FieldType
  | float => .float
  | long => .long
  | double => .double
  | _ => .int

def slots : BaseType → Nat
  | long | double => 2
  | _ => 1

theorem letter_injective : Function.Injective letter := by
  intro b b' h
  cases b <;> cases b' <;> first | rfl | cases h

theorem letter_ne (b : BaseType) : b.letter ≠ 'L' ∧ b.letter ≠ '[' ∧ b.letter ≠ 'V' := by
  cases b <;> decide

end BaseType

/-- The name of a class, which neither is empty nor ends early. -/
structure ClassText where
  name : String
  nonempty : name ≠ ""
  closed : ';' ∉ name.toList
  deriving DecidableEq, Repr

inductive TypeTerm where
  | base (type : BaseType)
  | object (name : ClassText)
  | array (element : TypeTerm)
  deriving DecidableEq, Repr

namespace TypeTerm

def spell : TypeTerm → List Char
  | base b => [b.letter]
  | object c => 'L' :: (c.name.toList ++ [';'])
  | array element => '[' :: element.spell

/-- An array is the reference that its whole text names. -/
def type : TypeTerm → FieldType
  | base b => b.type
  | object c => .reference c.name
  | array element => .reference (String.ofList (array element).spell)

def slots : TypeTerm → Nat
  | base b => b.slots
  | _ => 1

theorem slots_type (t : TypeTerm) : t.type.slots = t.slots := by
  cases t with
  | base b => cases b <;> rfl
  | object c => rfl
  | array element => rfl

theorem exists_spell_eq (t : TypeTerm) : ∃ c rest, t.spell = c :: rest := by
  cases t with
  | base b => exact ⟨_, _, rfl⟩
  | object c => exact ⟨_, _, rfl⟩
  | array element => exact ⟨_, _, rfl⟩

theorem head_spell_ne (t : TypeTerm) {c : Char} {rest : List Char} (h : t.spell = c :: rest) :
    c ≠ 'V' := by
  cases t with
  | base b =>
    cases h
    exact b.letter_ne.2.2
  | object name =>
    cases h
    decide
  | array element =>
    cases h
    decide

end TypeTerm

theorem append_cons_inj {c : Char} {first second : List Char} (h₁ : c ∉ first) (h₂ : c ∉ second)
    {rest rest' : List Char} (h : first ++ c :: rest = second ++ c :: rest') :
    first = second ∧ rest = rest' := by
  have htake := congrArg (List.takeWhile (· != c)) h
  rw [(Descriptor.span_append h₁ _).1, (Descriptor.span_append h₂ _).1,
    List.takeWhile_cons_of_neg (by simp), List.takeWhile_cons_of_neg (by simp), List.append_nil,
    List.append_nil] at htake
  subst htake
  exact ⟨rfl, (List.cons.inj (List.append_cancel_left h)).2⟩

/-- No spelling of a type goes on as that of another. -/
theorem TypeTerm.spell_append_inj {s t : TypeTerm} {rest rest' : List Char}
    (h : s.spell ++ rest = t.spell ++ rest') : s = t ∧ rest = rest' := by
  induction s generalizing t with
  | base b =>
    cases t with
    | base b' =>
      obtain ⟨hletter, hrest⟩ := List.cons.inj h
      obtain rfl := BaseType.letter_injective hletter
      exact ⟨rfl, hrest⟩
    | object c => exact absurd (List.cons.inj h).1 b.letter_ne.1
    | array element => exact absurd (List.cons.inj h).1 b.letter_ne.2.1
  | object c =>
    cases t with
    | base b => exact absurd (List.cons.inj h).1.symm b.letter_ne.1
    | object c' =>
      simp only [spell, List.cons_append, List.append_assoc, List.nil_append, List.cons.injEq,
        true_and] at h
      obtain ⟨hname, hrest⟩ := append_cons_inj c.closed c'.closed h
      obtain ⟨name, _, _⟩ := c
      obtain ⟨name', _, _⟩ := c'
      obtain rfl : name = name' := String.toList_inj.1 hname
      exact ⟨rfl, hrest⟩
    | array element => cases (List.cons.inj h).1
  | array element ih =>
    cases t with
    | base b => exact absurd (List.cons.inj h).1.symm b.letter_ne.2.1
    | object c => cases (List.cons.inj h).1
    | array element' =>
      obtain ⟨rfl, hrest⟩ := ih (List.cons.inj h).2
      exact ⟨rfl, hrest⟩

theorem TypeTerm.spell_injective : Function.Injective TypeTerm.spell := by
  intro s t h
  have happend : s.spell ++ [] = t.spell ++ [] := by rw [h]
  exact (spell_append_inj happend).1

theorem TypeTerm.flatMap_spell_injective :
    Function.Injective fun terms : List TypeTerm => terms.flatMap spell := by
  intro first second h
  induction first generalizing second with
  | nil =>
    cases second with
    | nil => rfl
    | cons t second =>
      obtain ⟨c, rest, ht⟩ := t.exists_spell_eq
      simp [ht] at h
  | cons s first ih =>
    cases second with
    | nil =>
      obtain ⟨c, rest, hs⟩ := s.exists_spell_eq
      simp [hs] at h
    | cons t second =>
      simp only [List.flatMap_cons] at h
      obtain ⟨rfl, hrest⟩ := spell_append_inj h
      rw [ih hrest]

namespace Descriptor

theorem scalar_base (b : BaseType) (rest : List Char) :
    scalar (b.letter :: rest) = .ok (b.type, rest) := by
  cases b <;> rfl

/-- A bracket in front makes a reference of whatever type follows. -/
theorem fieldType_bracket (text : List Char) :
    fieldType ('[' :: text) = (fieldType text).map fun read =>
      (.reference (String.ofList (('[' :: text).take (text.length + 1 - read.2.length))),
        read.2) := by
  have htake : ('[' :: text).takeWhile (· == '[') = '[' :: text.takeWhile (· == '[') := by simp
  have hdrop : ('[' :: text).dropWhile (· == '[') = text.dropWhile (· == '[') := by simp
  rw [fieldType, htake, hdrop]
  cases hfront : text.takeWhile (· == '[') with
  | nil =>
    have hsplit := List.takeWhile_append_dropWhile (p := (· == '[')) (l := text)
    rw [hfront, List.nil_append] at hsplit
    simp only [fieldType, hfront, hsplit, List.length_cons]
    cases scalar text <;> rfl
  | cons c front =>
    simp only [fieldType, hfront, List.length_cons]
    cases scalar (text.dropWhile (· == '[')) <;> rfl

theorem take_spell (t : TypeTerm) (rest : List Char) :
    ('[' :: (t.spell ++ rest)).take ((t.spell ++ rest).length + 1 - rest.length) =
      (TypeTerm.array t).spell := by
  have hlength : (t.spell ++ rest).length + 1 - rest.length = ('[' :: t.spell).length := by
    simp only [List.length_append, List.length_cons]
    omega
  rw [hlength, ← List.cons_append, List.take_left]
  rfl

/-- A type is read up to its end, whatever follows. -/
theorem fieldType_spell (t : TypeTerm) (rest : List Char) :
    fieldType (t.spell ++ rest) = .ok (t.type, rest) := by
  induction t with
  | base b => exact (fieldType_of_letter b.letter_ne.2.1).trans (scalar_base b rest)
  | object c =>
    rw [TypeTerm.spell, List.cons_append, List.append_assoc, List.singleton_append,
      fieldType_of_letter (by decide), scalar_object c.closed,
      if_neg (by simpa using c.nonempty), String.ofList_toList]
    rfl
  | array element ih =>
    rw [TypeTerm.spell, List.cons_append, fieldType_bracket, ih, Except.map, take_spell]
    rfl

theorem exists_spell_of_scalar {text after : List Char} {t : FieldType}
    (h : scalar text = .ok (t, after)) : ∃ s : TypeTerm, text = s.spell ++ after ∧ s.type = t := by
  unfold scalar at h
  split at h
  case h_10 rest =>
    split at h
    · cases h
    · rename_i c tail hdrop
      split at h
      · cases h
      · rename_i hname
        simp only [Except.ok.injEq, Prod.mk.injEq] at h
        obtain ⟨rfl, rfl⟩ := h
        have hc : c = ';' := by
          have hne : rest.dropWhile (· != ';') ≠ [] := by simp [hdrop]
          simpa [hdrop] using List.head_dropWhile_not (· != ';') hne
        subst hc
        refine ⟨.object ⟨String.ofList (rest.takeWhile (· != ';')), ?_, ?_⟩, ?_, rfl⟩
        · simpa using hname
        · rw [String.toList_ofList]
          intro hmem
          simpa using List.mem_takeWhile_imp hmem
        · rw [TypeTerm.spell, String.toList_ofList, List.cons_append, List.append_assoc,
            List.singleton_append, ← hdrop, List.takeWhile_append_dropWhile]
  case h_1 | h_11 => cases h
  all_goals
    simp only [Except.ok.injEq, Prod.mk.injEq] at h
    obtain ⟨rfl, rfl⟩ := h
  case h_2 rest => exact ⟨.base .boolean, rfl, rfl⟩
  case h_3 rest => exact ⟨.base .byte, rfl, rfl⟩
  case h_4 rest => exact ⟨.base .char, rfl, rfl⟩
  case h_5 rest => exact ⟨.base .short, rfl, rfl⟩
  case h_6 rest => exact ⟨.base .int, rfl, rfl⟩
  case h_7 rest => exact ⟨.base .float, rfl, rfl⟩
  case h_8 rest => exact ⟨.base .long, rfl, rfl⟩
  case h_9 rest => exact ⟨.base .double, rfl, rfl⟩

/-- Whatever is read as a type spells one. -/
theorem exists_spell_of_fieldType {text after : List Char} {t : FieldType}
    (h : fieldType text = .ok (t, after)) :
    ∃ s : TypeTerm, text = s.spell ++ after ∧ s.type = t := by
  induction text generalizing t with
  | nil => cases h
  | cons c text ih =>
    by_cases hc : c = '['
    · subst hc
      rw [fieldType_bracket] at h
      cases hread : fieldType text with
      | error fault =>
        rw [hread] at h
        cases h
      | ok read =>
        obtain ⟨t', after'⟩ := read
        rw [hread] at h
        cases h
        obtain ⟨s, rfl, -⟩ := ih hread
        exact ⟨.array s, rfl, by rw [take_spell]; rfl⟩
    · rw [fieldType_of_letter hc] at h
      exact exists_spell_of_scalar h

theorem single_eq_ok {text : List Char} {leftover : DescriptorFault} {t : FieldType} :
    single text leftover = .ok t ↔ ∃ s : TypeTerm, text = s.spell ∧ s.type = t := by
  constructor
  · intro h
    unfold single at h
    split at h
    · cases h
    · rename_i hread
      cases h
      obtain ⟨s, hs, ht⟩ := exists_spell_of_fieldType hread
      exact ⟨s, by rw [hs, List.append_nil], ht⟩
    · cases h
  · rintro ⟨s, rfl, rfl⟩
    have hread := fieldType_spell s []
    rw [List.append_nil] at hread
    rw [single, hread]

theorem fieldTypes_eq_ok {text : List Char} {ts : List FieldType} :
    fieldTypes text = .ok ts ↔
      ∃ terms : List TypeTerm,
        text = terms.flatMap TypeTerm.spell ∧ terms.map TypeTerm.type = ts := by
  constructor
  · intro h
    -- Along the text: each type that is read leaves a shorter one.
    induction hn : text.length using Nat.strong_induction_on generalizing text ts with
    | _ n ih =>
      cases text with
      | nil =>
        rw [fieldTypes] at h
        cases h
        exact ⟨[], rfl, rfl⟩
      | cons c rest =>
        obtain ⟨t, after, ts', hfirst, hrest, rfl⟩ := fieldTypes_cons h
        obtain ⟨terms, rfl, rfl⟩ := ih _ (hn ▸ fieldType_length hfirst) hrest rfl
        obtain ⟨s, hs, rfl⟩ := exists_spell_of_fieldType hfirst
        exact ⟨s :: terms, by rw [hs, List.flatMap_cons], rfl⟩
  · rintro ⟨terms, rfl, rfl⟩
    induction terms with
    | nil => simp [fieldTypes]
    | cons s terms ih =>
      have hfirst := fieldType_spell s (terms.flatMap TypeTerm.spell)
      obtain ⟨c, rest, hs⟩ := s.exists_spell_eq
      rw [hs, List.cons_append] at hfirst
      rw [List.flatMap_cons, hs, List.cons_append]
      exact fieldTypes_of_first hfirst ih

end Descriptor

structure MethodTerm where
  parameters : List TypeTerm
  result : Option TypeTerm
  closed : ∀ t ∈ parameters, ')' ∉ t.spell

namespace MethodTerm

def spellResult : Option TypeTerm → List Char
  | none => ['V']
  | some t => t.spell

def spell (m : MethodTerm) : List Char :=
  '(' :: (m.parameters.flatMap TypeTerm.spell ++ ')' :: spellResult m.result)

def descriptor (m : MethodTerm) : MethodDescriptor :=
  ⟨m.parameters.map TypeTerm.type, m.result.map TypeTerm.type⟩

theorem notMem_spell (m : MethodTerm) : ')' ∉ m.parameters.flatMap TypeTerm.spell := by
  intro hmem
  obtain ⟨t, ht, hmem⟩ := List.mem_flatMap.1 hmem
  exact m.closed t ht hmem

theorem spell_ne (t : TypeTerm) : t.spell ≠ ['V'] := fun h => t.head_spell_ne h rfl

theorem spellResult_injective : Function.Injective spellResult := by
  intro first second h
  cases first with
  | none =>
    cases second with
    | none => rfl
    | some t => exact absurd h.symm (spell_ne t)
  | some s =>
    cases second with
    | none => exact absurd h (spell_ne s)
    | some t => rw [TypeTerm.spell_injective h]

theorem spell_injective : Function.Injective spell := by
  intro first second h
  obtain ⟨hparameters, hresult⟩ :=
    append_cons_inj first.notMem_spell second.notMem_spell (List.cons.inj h).2
  obtain ⟨parameters, result, _⟩ := first
  obtain ⟨parameters', result', _⟩ := second
  obtain rfl : parameters = parameters' := TypeTerm.flatMap_spell_injective hparameters
  obtain rfl : result = result' := spellResult_injective hresult
  rfl

theorem parameterSlots_descriptor (m : MethodTerm) :
    m.descriptor.parameterSlots = (m.parameters.map TypeTerm.slots).sum := by
  rw [MethodDescriptor.parameterSlots, descriptor]
  induction m.parameters with
  | nil => rfl
  | cons t parameters ih =>
    rw [List.map_cons, List.foldr_cons, ih, TypeTerm.slots_type, List.map_cons, List.sum_cons]

end MethodTerm

namespace Descriptor

theorem method_eq_ok {text : List Char} {d : MethodDescriptor} :
    method text = .ok d ↔ ∃ m : MethodTerm, text = m.spell ∧ m.descriptor = d := by
  constructor
  · intro h
    obtain ⟨text, rfl⟩ : ∃ rest, text = '(' :: rest := by
      unfold method at h
      split at h
      · exact ⟨_, rfl⟩
      · cases h
    obtain ⟨result, hdrop, hparameters, hresult⟩ := method_ok h
    obtain ⟨terms, hterms, hdenotes⟩ := fieldTypes_eq_ok.1 hparameters
    have hclosed : ∀ t ∈ terms, ')' ∉ t.spell := by
      intro t ht hmem
      have hfront : ')' ∈ text.takeWhile (· != ')') := by
        rw [hterms]
        exact List.mem_flatMap.2 ⟨t, ht, hmem⟩
      simpa using List.mem_takeWhile_imp hfront
    have hsplit : text = terms.flatMap TypeTerm.spell ++ ')' :: result := by
      rw [← hterms, ← hdrop, List.takeWhile_append_dropWhile]
    obtain ⟨parameters, returned⟩ := d
    obtain rfl : terms.map TypeTerm.type = parameters := hdenotes
    rcases hresult with ⟨rfl, hnone⟩ | ⟨-, t, ht, hsome⟩
    · obtain rfl : returned = none := hnone
      exact ⟨⟨terms, none, hclosed⟩, by rw [hsplit]; rfl, rfl⟩
    · obtain rfl : returned = some t := hsome
      obtain ⟨s, rfl, rfl⟩ := single_eq_ok.1 ht
      exact ⟨⟨terms, some s, hclosed⟩, by rw [hsplit]; rfl, rfl⟩
  · rintro ⟨m, rfl, rfl⟩
    obtain ⟨htake, hdrop⟩ := span_append m.notMem_spell (')' :: MethodTerm.spellResult m.result)
    rw [List.takeWhile_cons_of_neg (by simp), List.append_nil] at htake
    rw [List.dropWhile_cons_of_neg (by simp)] at hdrop
    have hparameters := fieldTypes_eq_ok.2 ⟨m.parameters, rfl, rfl⟩
    simp only [MethodTerm.spell, method, htake, hdrop, hparameters]
    cases hresult : m.result with
    | none => simp [MethodTerm.spellResult, MethodTerm.descriptor, hresult]
    | some t =>
      have hread : single t.spell .trailingReturn = .ok t.type := single_eq_ok.2 ⟨t, rfl, rfl⟩
      simp [MethodTerm.spellResult, MethodTerm.descriptor, hresult, MethodTerm.spell_ne t, hread]

end Descriptor

theorem mapError_eq_ok {ε ε' α : Type} {x : Except ε α} {f : ε → ε'} {a : α} :
    x.mapError f = .ok a ↔ x = .ok a := by
  cases x <;> simp [Except.mapError]

/-- Descriptors are read exactly if the grammar derives them. The term that a descriptor spells is
the only one, and gives its types in order; it takes two slots for each `long` and `double` among
the parameters, and one for any other. -/
theorem descriptors_spell_terms :
    (∀ text t, FieldType.parse text = .ok t ↔ ∃ s : TypeTerm, text.toList = s.spell ∧ s.type = t) ∧
    (∀ text d, MethodDescriptor.parse text = .ok d ↔
      ∃ m : MethodTerm, text.toList = m.spell ∧ m.descriptor = d) ∧
    Function.Injective TypeTerm.spell ∧ Function.Injective MethodTerm.spell ∧
    ∀ m : MethodTerm, m.descriptor.parameterSlots = (m.parameters.map TypeTerm.slots).sum := by
  refine ⟨fun text t => ?_, fun text d => ?_, TypeTerm.spell_injective,
    MethodTerm.spell_injective, MethodTerm.parameterSlots_descriptor⟩
  · rw [FieldType.parse, mapError_eq_ok, Descriptor.single_eq_ok]
  · rw [MethodDescriptor.parse, mapError_eq_ok, Descriptor.method_eq_ok]

end SmalltalkJvm
