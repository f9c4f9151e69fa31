import SmalltalkJvm.Proofs.Names

/-! # The search for a block's name

A block is named by trying names until one is free: first that of its symbol, if there is one that
is legal, and then numbers, counting on from where the search before it stopped. The search ends,
since numbered names differ and only so many names are taken.

Searches that follow one another try each number once at most, whatever symbols come between them
and take numbered names: together they try the numbers in their order without leaving one out.
-/

namespace SmalltalkJvm.BlockName

inductive Candidate where
  | symbol (name : String)
  | number (n : Nat)
  deriving DecidableEq, Repr

namespace Candidate

def name : Candidate → String
  | symbol name => name
  | number n => numbered n

def number? : Candidate → Option Nat
  | symbol _ => none
  | number n => some n

end Candidate

/-- What a search tries now, and the number that it would try next. -/
structure Search where
  candidate : Candidate
  next : Nat
  deriving DecidableEq, Repr

namespace Search

def start (next : Nat) (symbol : Option String) : Search :=
  match symbol.bind ofSymbol? with
  | some name => ⟨.symbol name, next⟩
  | none => ⟨.number next, next + 1⟩

def retry (s : Search) : Search := ⟨.number s.next, s.next + 1⟩

/-- A search passes over some candidates, one in each round, and ends at the first that is free. -/
inductive Finds (taken : Std.HashSet String) : Search → List Candidate → Search → Prop where
  | free {s : Search} (h : s.candidate.name ∉ taken) : Finds taken s [] s
  | again {s found : Search} {passed : List Candidate} (h : s.candidate.name ∈ taken)
      (rest : Finds taken s.retry passed found) : Finds taken s (s.candidate :: passed) found

variable {taken : Std.HashSet String} {s found : Search} {passed : List Candidate}

theorem Finds.notMem (h : s.Finds taken passed found) : found.candidate.name ∉ taken := by
  induction h with
  | free h => exact h
  | again _ _ ih => exact ih

/-- A search ends with its first candidate or with a number that it came to by counting. -/
theorem Finds.cases_found (h : s.Finds taken passed found) :
    found = s ∨ ∃ n, s.next ≤ n ∧ found = ⟨.number n, n + 1⟩ := by
  induction h with
  | free _ => exact .inl rfl
  | @again s found passed _ _ ih =>
    rcases ih with rfl | ⟨n, hn, rfl⟩
    · exact .inr ⟨s.next, Nat.le_refl _, rfl⟩
    · exact .inr ⟨n, Nat.le_of_succ_le hn, rfl⟩

theorem Finds.numbers (h : s.Finds taken passed found) :
    s.next ≤ found.next ∧ (passed ++ [found.candidate]).filterMap Candidate.number? =
      s.candidate.number?.toList ++ List.range' s.next (found.next - s.next) := by
  induction h with
  | @free s _ => cases hc : s.candidate.number? <;> simp [hc]
  | @again s found passed _ _ ih =>
    obtain ⟨hle, hnumbers⟩ := ih
    have hlt : s.next < found.next := hle
    have hsub : found.next - s.next = (found.next - (s.next + 1)) + 1 := by omega
    refine ⟨by omega, ?_⟩
    rw [hsub, List.range'_succ, List.cons_append, List.filterMap_cons, hnumbers]
    cases s.candidate.number? <;> rfl

/-- The numbers that are tried are those between the numbers from which to look before and after. -/
theorem Finds.numbers_start {next : Nat} {symbol : Option String}
    (h : (start next symbol).Finds taken passed found) :
    next ≤ found.next ∧ (passed ++ [found.candidate]).filterMap Candidate.number? =
      List.range' next (found.next - next) := by
  obtain ⟨hle, hnumbers⟩ := h.numbers
  rw [hnumbers]
  cases hname : symbol.bind ofSymbol? with
  | some name =>
    simp only [start, hname] at hle ⊢
    exact ⟨hle, rfl⟩
  | none =>
    simp only [start, hname] at hle ⊢
    have hsub : found.next - next = (found.next - (next + 1)) + 1 := by omega
    exact ⟨by omega, by rw [hsub, List.range'_succ]; rfl⟩

/-- Where numbers are taken up to one that is free, the search ends there. -/
theorem finds_number {n k : Nat} (htaken : ∀ i < k, numbered (n + i) ∈ taken)
    (hfree : numbered (n + k) ∉ taken) :
    Finds taken ⟨.number n, n + 1⟩ ((List.range' n k).map .number)
      ⟨.number (n + k), n + k + 1⟩ := by
  induction k generalizing n with
  | zero => exact .free hfree
  | succ k ih =>
    rw [List.range'_succ, List.map_cons]
    have hrest : Finds taken ⟨.number (n + 1), n + 1 + 1⟩ ((List.range' (n + 1) k).map .number)
        ⟨.number (n + 1 + k), n + 1 + k + 1⟩ := by
      apply ih
      · intro i hi
        have := htaken (i + 1) (by omega)
        rwa [← Nat.add_assoc, Nat.add_right_comm] at this
      · rwa [← Nat.add_assoc, Nat.add_right_comm] at hfree
    rw [← Nat.add_assoc, Nat.add_right_comm n k 1]
    exact .again (htaken 0 (by omega)) hrest

end Search

theorem dropWhile_eq_iff {c : Char} {text rest : List Char} :
    text.dropWhile (· == c) = rest ↔
      (∃ n, text = List.replicate n c ++ rest) ∧ rest.head? ≠ some c := by
  constructor
  · rintro rfl
    have hall : ∀ d ∈ text.takeWhile (· == c), d = c := by
      intro d hd
      simpa using List.all_eq_true.1 (List.all_takeWhile (p := (· == c))) d hd
    refine ⟨⟨(text.takeWhile (· == c)).length, ?_⟩, ?_⟩
    · rw [← List.eq_replicate_of_mem hall, List.takeWhile_append_dropWhile]
    · intro hhead
      have := List.head?_dropWhile_not (· == c) text
      simp [hhead] at this
  · rintro ⟨⟨n, rfl⟩, hhead⟩
    induction n with
    | zero =>
      cases rest with
      | nil => rfl
      | cons d rest => simp_all
    | succ n ih => simpa [List.replicate_succ] using ih

theorem isLegal_iff {name : String} :
    isLegal name = true ↔ name ≠ "" ∧ ∀ c ∈ name.toList, c ∉ forbidden := by
  simp [isLegal]

/-- The name that a symbol gives to a block: what stands behind all the hash signs in front of its
text, where that is a legal name. -/
def IsSymbolName (symbol : Option String) (name : String) : Prop :=
  ∃ text, symbol = some text ∧
    (∃ hashes, text.toList = List.replicate hashes '#' ++ name.toList) ∧
    name.toList.head? ≠ some '#' ∧ name ≠ "" ∧
    ∀ c ∈ name.toList, c ∉ ['.', ';', '[', '/', '<', '>']

theorem ofSymbol?_eq_some_iff {text name : String} :
    ofSymbol? text = some name ↔
      text.toList.dropWhile (· == '#') = name.toList ∧ isLegal name = true := by
  simp only [ofSymbol?, Option.ite_none_right_eq_some, Option.some.injEq]
  constructor
  · rintro ⟨hlegal, rfl⟩
    exact ⟨String.toList_ofList.symm, hlegal⟩
  · rintro ⟨hrest, hlegal⟩
    rw [hrest, String.ofList_toList]
    exact ⟨hlegal, rfl⟩

theorem isSymbolName_iff {symbol : Option String} {name : String} :
    IsSymbolName symbol name ↔ symbol.bind ofSymbol? = some name := by
  rw [Option.bind_eq_some_iff]
  refine exists_congr fun text => and_congr_right fun _ => ?_
  rw [ofSymbol?_eq_some_iff, dropWhile_eq_iff, isLegal_iff, and_assoc]
  rfl

/-- The name that is chosen is the one that the search finds, with one round for each taken name at
most and one more for the symbol. -/
theorem choose_finds (taken : Std.HashSet String) (next : Nat) (symbol : Option String) :
    ∃ passed found, (Search.start next symbol).Finds taken passed found ∧
      passed.length ≤ taken.size + 1 ∧
      choose taken next symbol = (found.candidate.name, found.next) := by
  obtain ⟨k, hk, htaken, hfree⟩ := firstFree_size_spec taken next
  have hsize := le_size_of_numbered_mem htaken
  have hnumber : choose.number taken next = (numbered (next + k), next + k + 1) := by
    rw [choose.number, hk]
  have hfinds := Search.finds_number htaken hfree
  rw [choose, Search.start]
  cases symbol.bind ofSymbol? with
  | none =>
    refine ⟨_, _, hfinds, ?_, hnumber⟩
    rw [List.length_map, List.length_range']
    omega
  | some name =>
    by_cases hname : name ∈ taken
    -- the symbol's name may be a numbered one, which then is passed over twice
    · refine ⟨_, _, .again hname hfinds, ?_, ?_⟩
      · rw [List.length_cons, List.length_map, List.length_range']
        omega
      · simp only [if_pos hname, hnumber]
        rfl
    · refine ⟨[], _, .free hname, by simp, ?_⟩
      simp only [if_neg hname]
      rfl

/-- A search from a symbol's name that is free stops there, and every other ends with a number. -/
theorem Search.Finds.found_eq {taken : Std.HashSet String} {next : Nat} {symbol : Option String}
    {passed : List Candidate} {found : Search} (h : (start next symbol).Finds taken passed found) :
    (∀ name, IsSymbolName symbol name → name ∉ taken → found = ⟨.symbol name, next⟩) ∧
      ((∀ name, IsSymbolName symbol name → name ∈ taken) →
        ∃ n, next ≤ n ∧ found = ⟨.number n, n + 1⟩) := by
  simp only [isSymbolName_iff]
  cases hname : symbol.bind ofSymbol? with
  | none =>
    simp only [start, hname] at h
    refine ⟨by simp, fun _ => ?_⟩
    rcases h.cases_found with rfl | ⟨n, hn, rfl⟩
    · exact ⟨next, Nat.le_refl _, rfl⟩
    · exact ⟨n, Nat.le_of_succ_le hn, rfl⟩
  | some name =>
    simp only [start, hname] at h
    cases h with
    | free hfree =>
      refine ⟨?_, fun htaken => absurd (htaken name rfl) hfree⟩
      rintro _ ⟨⟩ -
      rfl
    | again htaken hrest =>
      refine ⟨?_, fun _ => ?_⟩
      · rintro _ ⟨⟩ hfree
        exact absurd htaken hfree
      · rcases hrest.cases_found with rfl | ⟨n, hn, rfl⟩
        · exact ⟨next, Nat.le_refl _, rfl⟩
        · exact ⟨n, Nat.le_of_succ_le hn, rfl⟩

/-- The names in use, and the number from which to look for the next. -/
structure Supply where
  taken : Std.HashSet String
  next : Nat

namespace Supply

def afterName (p : Supply) (symbol : Option String) : Supply :=
  ⟨p.taken.insert (choose p.taken p.next symbol).1, (choose p.taken p.next symbol).2⟩

def afterNames (p : Supply) (symbols : List (Option String)) : Supply :=
  symbols.foldl afterName p

/-- Searches that follow one another, with all that they try and the names that they find. -/
inductive Serves : Supply → List (Option String) → List Candidate → List String → Supply → Prop
  | nil (p : Supply) : Serves p [] [] [] p
  | cons {p p' : Supply} {symbol : Option String} {symbols : List (Option String)}
      {passed tried : List Candidate} {found : Search} {names : List String}
      (first : (Search.start p.next symbol).Finds p.taken passed found)
      (rest : Serves ⟨p.taken.insert found.candidate.name, found.next⟩ symbols tried names p') :
      Serves p (symbol :: symbols) (passed ++ [found.candidate] ++ tried)
        (found.candidate.name :: names) p'

theorem serves_afterNames (p : Supply) (symbols : List (Option String)) :
    ∃ tried names, p.Serves symbols tried names (p.afterNames symbols) := by
  induction symbols generalizing p with
  | nil => exact ⟨[], [], .nil p⟩
  | cons symbol symbols ih =>
    obtain ⟨passed, found, hfinds, -, hchoose⟩ := choose_finds p.taken p.next symbol
    have hafter : p.afterName symbol = ⟨p.taken.insert found.candidate.name, found.next⟩ := by
      rw [afterName, hchoose]
    obtain ⟨tried, names, hserves⟩ := ih (p.afterName symbol)
    refine ⟨passed ++ [found.candidate] ++ tried, found.candidate.name :: names, .cons hfinds ?_⟩
    rw [← hafter]
    exact hserves

variable {p p' : Supply} {symbols : List (Option String)} {tried : List Candidate}
  {names : List String}

/-- No number is left out and none is tried twice. -/
theorem Serves.numbers (h : p.Serves symbols tried names p') :
    p.next ≤ p'.next ∧
      tried.filterMap Candidate.number? = List.range' p.next (p'.next - p.next) := by
  induction h with
  | nil p => simp
  | @cons p p' symbol symbols passed tried found names first _ ih =>
    obtain ⟨hfirst, hnumbers⟩ := first.numbers_start
    obtain ⟨hrest, htried⟩ := ih
    have hsub : p'.next - p.next = (found.next - p.next) + (p'.next - found.next) := by
      have : found.next ≤ p'.next := hrest
      omega
    refine ⟨Nat.le_trans hfirst hrest, ?_⟩
    rw [List.filterMap_append, hnumbers, htried, hsub, ← List.range'_append_1,
      Nat.add_sub_cancel' hfirst]

/-- The names that are found were free, differ from each other, and are taken then. -/
theorem Serves.names_new (h : p.Serves symbols tried names p') :
    names.Nodup ∧ (∀ name ∈ names, name ∉ p.taken) ∧
      ∀ name, name ∈ p'.taken ↔ name ∈ p.taken ∨ name ∈ names := by
  induction h with
  | nil p => simp
  | @cons p p' symbol symbols passed tried found names first _ ih =>
    obtain ⟨hnodup, hnew, htaken⟩ := ih
    simp only [Std.HashSet.mem_insert, beq_iff_eq, not_or] at hnew htaken
    refine ⟨List.nodup_cons.2 ⟨fun hmem => (hnew _ hmem).1 rfl, hnodup⟩, ?_, ?_⟩
    · rintro name (_ | ⟨_, hmem⟩)
      · exact first.notMem
      · exact (hnew name hmem).2
    · intro name
      rw [htaken, List.mem_cons, eq_comm]
      tauto

end Supply

end SmalltalkJvm.BlockName
