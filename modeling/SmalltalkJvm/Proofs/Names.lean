import Mathlib.Data.List.Nodup
import Mathlib.Data.List.Perm.Subperm
import SmalltalkJvm.Compile.State

/-! # Names

The names that a method declares are found by their places in its lists of parameters and
temporaries. A scope holds the same in another form: what it resolves a name to is what the lists
give, as long as its names were declared without conflict.

The name that a block gets is not in use. Where it is a number, as many tries as names are in use
are enough to find a free one: the numbered names differ, so not all of one more than that can be
taken.
-/

namespace SmalltalkJvm

def Ident.binds (ident : Ident) (name : String) : Bool := bareName ident.name == bareName name

@[simp] theorem Ident.binds_self (ident : Ident) : ident.binds ident.name = true := by
  simp [binds]

/-- What a name stands for in a method: a temporary or a parameter, by its place among them, or a
global. -/
inductive Variable where
  | temporary (place : Nat)
  | argument (place : Nat)
  | global
  deriving DecidableEq, Repr

def variableOf (parameters temporaries : List Ident) (name : String) : Variable :=
  match temporaries.findIdx? (·.binds name) with
  | some place => .temporary place
  | none => (parameters.findIdx? (·.binds name)).elim .global .argument

/-- Slots have 16 bits, so a place from 65536 on gets the slot of an earlier one. -/
def Variable.resolution : Variable → Resolution
  | .temporary place => .temporary (.ofNat place)
  | .argument place => .argument (.ofNat place)
  | .global => .unresolved

def lookup (parameters temporaries : List Ident) (name : String) : Resolution :=
  (variableOf parameters temporaries name).resolution

/-- The place of a variable is the number of its slot. -/
def Variable.Fits : Variable → Prop
  | .temporary place | .argument place => place < 65536
  | .global => True

/-- There are few enough names for slots of 16 bits. Of the temporaries the count itself has to
fit too, since it is passed on. -/
structure Addressable (parameters temporaries : List Ident) : Prop where
  parameters : parameters.length ≤ 65536
  temporaries : temporaries.length < 65536

section

variable {parameters temporaries : List Ident} {name : String}

theorem variableOf_temporary {place : Nat}
    (h : variableOf parameters temporaries name = .temporary place) :
    temporaries.findIdx? (·.binds name) = some place ∧ place < temporaries.length := by
  unfold variableOf at h
  cases hfind : temporaries.findIdx? (·.binds name) with
  | none =>
    rw [hfind] at h
    cases hother : parameters.findIdx? (·.binds name) <;> simp [hother] at h
  | some found =>
    simp only [hfind, Variable.temporary.injEq] at h
    subst h
    exact ⟨rfl, (List.findIdx?_eq_some_iff_getElem.1 hfind).1⟩

theorem variableOf_argument {place : Nat}
    (h : variableOf parameters temporaries name = .argument place) :
    parameters.findIdx? (·.binds name) = some place ∧ place < parameters.length := by
  unfold variableOf at h
  cases hfind : temporaries.findIdx? (·.binds name) with
  | some found => simp [hfind] at h
  | none =>
    cases hother : parameters.findIdx? (·.binds name) with
    | none => simp [hfind, hother] at h
    | some found =>
      simp only [hfind, hother, Option.elim_some, Variable.argument.injEq] at h
      subst h
      exact ⟨rfl, (List.findIdx?_eq_some_iff_getElem.1 hother).1⟩

/-- Names are resolved to slots that have the numbers of their places. -/
def Locates (resolve : String → Resolution) (places : String → Variable) : Prop :=
  ∀ name, (places name).Fits ∧ resolve name = (places name).resolution

theorem Addressable.locates (h : Addressable parameters temporaries) :
    Locates (lookup parameters temporaries) (variableOf parameters temporaries) := by
  refine fun name => ⟨?_, rfl⟩
  cases hvariable : variableOf parameters temporaries name with
  | temporary place => exact Nat.lt_trans (variableOf_temporary hvariable).2 h.temporaries
  | argument place => exact Nat.lt_of_lt_of_le (variableOf_argument hvariable).2 h.parameters
  | global => trivial

end

namespace Scope

/-- The scope of a method whose declarations so far are those given. -/
structure Declares (s : Scope) (parameters temporaries : List Ident) : Prop where
  arity : s.arguments = .ofNat parameters.length
  count : s.temporaries = .ofNat temporaries.length
  resolve_eq (name : String) : s.resolve name = lookup parameters temporaries name

theorem declares_empty : Declares {} [] [] :=
  ⟨rfl, rfl, fun name => by simp [Scope.resolve, binding?, lookup, variableOf, Variable.resolution]⟩

theorem resolve_of_conflict {s : Scope} {name : String} {span : Span}
    (h : s.conflict? name span = none) : s.resolve name = .unresolved := by
  have hmem : bareName name ∉ s.bindings := by
    intro hin
    simp [conflict?, hin] at h
  simp [Scope.resolve, binding?, Std.HashMap.getElem?_eq_none hmem]

theorem resolve_bind (s : Scope) (ident : Ident) (kind : SlotKind) (span : Span) (name : String) :
    (s.bind ident.name kind span).resolve name =
      if ident.binds name then
        match kind with
        | .temporary => .temporary s.temporaries
        | .argument => .argument s.arguments
      else s.resolve name := by
  by_cases h : bareName ident.name = bareName name
  · cases kind <;> simp [Scope.resolve, binding?, bind, Ident.binds, h, nextSlot]
  · simp [Scope.resolve, binding?, bind, Std.HashMap.getElem?_insert, Ident.binds, h]

variable {s : Scope} {parameters temporaries : List Ident} {ident : Ident} {span : Span}

theorem binds_congr {name : String} (h : ident.binds name = true) :
    (fun other : Ident => other.binds name) = fun other => other.binds ident.name := by
  have heq : bareName ident.name = bareName name := by simpa [Ident.binds] using h
  simp [Ident.binds, heq]

theorem lookup_eq_unresolved {name : String} :
    lookup parameters temporaries name = .unresolved ↔
      parameters.findIdx? (·.binds name) = none ∧ temporaries.findIdx? (·.binds name) = none := by
  unfold lookup variableOf
  cases temporaries.findIdx? (·.binds name) <;> cases parameters.findIdx? (·.binds name) <;>
    simp [Variable.resolution]

/-- A name that is not bound yet becomes the next argument. -/
theorem Declares.argument (h : s.Declares parameters [])
    (hc : s.conflict? ident.name span = none) :
    (s.bind ident.name .argument span).Declares (parameters ++ [ident]) [] := by
  refine ⟨by simp [bind, h.arity], by simp [bind, h.count], fun name => ?_⟩
  have hfree := resolve_of_conflict hc
  rw [h.resolve_eq, lookup_eq_unresolved] at hfree
  rw [resolve_bind, h.resolve_eq]
  by_cases hb : ident.binds name = true
  · simp [lookup, variableOf, Variable.resolution, List.findIdx?_append, hb, binds_congr hb,
      hfree.1, h.arity]
  · cases hp : parameters.findIdx? (·.binds name) <;>
      simp [lookup, variableOf, Variable.resolution, List.findIdx?_append, hb, hp]

/-- A name that is not bound yet becomes the next temporary. -/
theorem Declares.temporary (h : s.Declares parameters temporaries)
    (hc : s.conflict? ident.name span = none) :
    (s.bind ident.name .temporary span).Declares parameters (temporaries ++ [ident]) := by
  refine ⟨by simp [bind, h.arity], by simp [bind, h.count], fun name => ?_⟩
  have hfree := resolve_of_conflict hc
  rw [h.resolve_eq, lookup_eq_unresolved] at hfree
  rw [resolve_bind, h.resolve_eq]
  by_cases hb : ident.binds name = true
  · simp [lookup, variableOf, Variable.resolution, List.findIdx?_append, hb, binds_congr hb,
      hfree.2, h.count]
  · cases ht : temporaries.findIdx? (·.binds name) <;>
      simp [lookup, variableOf, Variable.resolution, List.findIdx?_append, hb, ht]

end Scope

namespace BlockName

theorem numbered_injective {m n : Nat} (h : numbered m = numbered n) : m = n := by
  have hdigits : Nat.toDigits 10 m = Nat.toDigits 10 n := by
    have := congrArg String.toList h
    simpa [numbered, Nat.toString_eq_repr] using this
  rw [← Nat.ofDigitChars_ten_toDigits (n := m), hdigits, Nat.ofDigitChars_ten_toDigits]

/-- The numbers before the one that is given are taken, and it is given for want of tries only if it
is taken too. -/
theorem firstFree_spec (taken : Std.HashSet String) (tries n : Nat) :
    ∃ k, firstFree taken tries n = n + k ∧ (∀ i < k, numbered (n + i) ∈ taken) ∧
      (numbered (n + k) ∈ taken → k = tries) := by
  induction tries generalizing n with
  | zero => exact ⟨0, rfl, by simp, fun _ => rfl⟩
  | succ tries ih =>
    by_cases h : numbered n ∈ taken
    · obtain ⟨k, hk, htaken, htries⟩ := ih (n + 1)
      have hshift (i : Nat) : n + (i + 1) = n + 1 + i := by omega
      refine ⟨k + 1, ?_, fun i hi => ?_, fun hlast => ?_⟩
      · rw [firstFree, if_pos h, hk]
        omega
      · cases i with
        | zero => exact h
        | succ i =>
          rw [hshift]
          exact htaken i (by omega)
      · rw [hshift] at hlast
        rw [htries hlast]
    · rw [firstFree, if_neg h]
      exact ⟨0, rfl, by simp, fun hn => absurd hn h⟩

/-- Numbered names differ, so no more of them are taken than names are. -/
theorem le_size_of_numbered_mem {taken : Std.HashSet String} {n k : Nat}
    (h : ∀ i < k, numbered (n + i) ∈ taken) : k ≤ taken.size := by
  have hnodup : ((List.range k).map fun i => numbered (n + i)).Nodup := by
    refine List.Nodup.map (fun a b h => ?_) List.nodup_range
    have := numbered_injective h
    omega
  have hsub : ((List.range k).map fun i => numbered (n + i)) ⊆ taken.toList := by
    intro name hname
    obtain ⟨i, hi, rfl⟩ := List.mem_map.1 hname
    exact Std.HashSet.mem_toList.2 (h i (List.mem_range.1 hi))
  have hlength := (hnodup.subperm hsub).length_le
  rwa [List.length_map, List.length_range, Std.HashSet.length_toList] at hlength

/-- As many tries as names are taken come to a free number. -/
theorem firstFree_size_spec (taken : Std.HashSet String) (n : Nat) :
    ∃ k, firstFree taken taken.size n = n + k ∧ (∀ i < k, numbered (n + i) ∈ taken) ∧
      numbered (n + k) ∉ taken := by
  obtain ⟨k, hk, htaken, htries⟩ := firstFree_spec taken taken.size n
  refine ⟨k, hk, htaken, fun hlast => ?_⟩
  have hall : ∀ i < k + 1, numbered (n + i) ∈ taken := by
    intro i hi
    rcases Nat.lt_succ_iff_lt_or_eq.1 hi with hi | rfl
    · exact htaken i hi
    · exact hlast
  have hsize := le_size_of_numbered_mem hall
  rw [htries hlast] at hsize
  omega

theorem numbered_firstFree (taken : Std.HashSet String) (n : Nat) :
    numbered (firstFree taken taken.size n) ∉ taken := by
  obtain ⟨k, hk, -, hfree⟩ := firstFree_size_spec taken n
  rwa [hk]

theorem choose_notMem (taken : Std.HashSet String) (next : Nat) (symbol : Option String) :
    (choose taken next symbol).1 ∉ taken := by
  unfold choose
  split
  · split_ifs with h
    · exact numbered_firstFree taken next
    · exact h
  · exact numbered_firstFree taken next

theorem toList_numbered (n : Nat) : (numbered n).toList = 'B' :: Nat.toDigits 10 n := by
  simp only [numbered, Nat.toString_eq_repr, String.toList_append, Nat.toList_repr]
  rfl

theorem isLegal_numbered (n : Nat) : isLegal (numbered n) = true := by
  have hlist := toList_numbered n
  have hdigit (c : Char) (hc : c ∈ Nat.toDigits 10 n) : forbidden.contains c = false := by
    have hisDigit := Nat.isDigit_of_mem_toDigits (by decide) (by decide) hc
    rw [← Bool.not_eq_true, List.contains_iff_mem]
    simp only [forbidden, List.mem_cons, List.not_mem_nil, or_false]
    rintro (rfl | rfl | rfl | rfl | rfl | rfl) <;> exact absurd hisDigit (by decide)
  simp only [isLegal, hlist, Bool.and_eq_true, bne_iff_ne, ne_eq, List.all_cons, List.all_eq_true]
  refine ⟨?_, by decide, fun c hc => by rw [hdigit c hc]; rfl⟩
  intro h
  rw [h] at hlist
  cases hlist

theorem isLegal_choose (taken : Std.HashSet String) (next : Nat) (symbol : Option String) :
    isLegal (choose taken next symbol).1 = true := by
  unfold choose
  split
  · rename_i name hname
    split_ifs
    · exact isLegal_numbered _
    · obtain ⟨text, -, htext⟩ := Option.bind_eq_some_iff.1 hname
      simp only [ofSymbol?] at htext
      split_ifs at htext with hlegal
      cases htext
      exact hlegal
  · exact isLegal_numbered _

end BlockName
end SmalltalkJvm
