import Mathlib.Data.List.Nodup
import SmalltalkJvm.ClassStore

/-! # Stores that are shared

Many callers use one store. A class or a batch is defined in one step; to compile and define is two
steps, of which the first does not touch the store; and the classes of a unit that are defined one
by one take a step each. Between the steps of one call there may be any steps of the others.

In every such run the store only grows, what a call is told agrees with what it has done to the
store, and the names in the store are those that the calls have put there, each of them once.
-/

namespace SmalltalkJvm

namespace ClassStore

variable {s s' : ClassStore} {c : CompiledClass} {batch : List CompiledClass} {name : String}

theorem contains_eq : s.contains name = (s.get? name).isSome :=
  Std.TreeMap.contains_eq_isSome_getElem?

theorem contains_eq_false : s.contains name = false ↔ s.get? name = none := by
  rw [contains_eq, Option.isSome_eq_false_iff, Option.isNone_iff_eq_none]

theorem mem_names : name ∈ s.names ↔ s.get? name ≠ none := by
  rw [names, Std.TreeMap.mem_keys, ← Std.TreeMap.contains_iff_mem, ← Option.isSome_iff_ne_none,
    ← contains_eq]
  rfl

theorem nodup_names : s.names.Nodup := Std.TreeMap.nodup_keys

theorem length_names : s.names.length = s.size := Std.TreeMap.length_keys

theorem get?_insert :
    (s.insert c).get? name = if c.name = name then some c.bytes else s.get? name := by
  simp [get?, insert, Std.TreeMap.getElem?_insert]

/-- A store takes some classes, whose names are new, and nothing else in it changes. -/
structure Adds (s : ClassStore) (batch : List CompiledClass) (s' : ClassStore) : Prop where
  absent : ∀ c ∈ batch, s.get? c.name = none
  distinct : (batch.map CompiledClass.name).Nodup
  added : ∀ c ∈ batch, s'.get? c.name = some c.bytes
  others (name : String) (h : name ∉ batch.map CompiledClass.name) : s'.get? name = s.get? name

/-- A store refuses a batch for a name: it is the first in the batch that the store has or that is
repeated. -/
def Refuses (s : ClassStore) (batch : List CompiledClass) (name : String) : Prop :=
  ∃ before c after, batch = before ++ c :: after ∧ c.name = name ∧
    (s.get? name ≠ none ∨ name ∈ before.map CompiledClass.name) ∧
    (∀ d ∈ before, s.get? d.name = none) ∧ (before.map CompiledClass.name).Nodup

theorem Adds.nil (s : ClassStore) : s.Adds [] s :=
  ⟨by simp, by simp, by simp, fun _ _ => rfl⟩

theorem adds_foldl (hnew : ∀ c ∈ batch, s.get? c.name = none)
    (hnodup : (batch.map CompiledClass.name).Nodup) : s.Adds batch (batch.foldl insert s) := by
  induction batch generalizing s with
  | nil => exact .nil s
  | cons c batch ih =>
    obtain ⟨hc, hrest⟩ := List.forall_mem_cons.1 hnew
    obtain ⟨hunlike, hnodup'⟩ := List.nodup_cons.1 hnodup
    have hne : ∀ d ∈ batch, c.name ≠ d.name := fun d hd heq =>
      hunlike (heq ▸ List.mem_map_of_mem hd)
    have hadds := ih (s := s.insert c) (fun d hd => by
      rw [get?_insert, if_neg (hne d hd)]
      exact hrest d hd) hnodup'
    refine ⟨hnew, hnodup, ?_, fun name hname => ?_⟩
    · refine List.forall_mem_cons.2 ⟨?_, hadds.added⟩
      rw [List.foldl_cons, hadds.others _ hunlike, get?_insert, if_pos rfl]
    · obtain ⟨hfirst, hothers⟩ := not_or.1 (mt List.mem_cons.2 hname)
      rw [List.foldl_cons, hadds.others _ hothers, get?_insert, if_neg (Ne.symm hfirst)]

/-- A batch is not refused if its names are new and distinct. -/
theorem fresh_of_go {seen : Std.HashSet String} (h : refused?.go s seen batch = none) :
    (∀ c ∈ batch, s.get? c.name = none ∧ c.name ∉ seen) ∧ (batch.map CompiledClass.name).Nodup := by
  induction batch generalizing seen with
  | nil => simp
  | cons c batch ih =>
    rw [refused?.go] at h
    split_ifs at h with hc
    simp only [Bool.or_eq_true, not_or, Bool.not_eq_true, contains_eq_false] at hc
    obtain ⟨hfresh, hnodup⟩ := ih h
    simp only [Std.HashSet.mem_insert, beq_iff_eq, not_or] at hfresh
    refine ⟨List.forall_mem_cons.2 ⟨⟨hc.1, by simpa using hc.2⟩, fun d hd =>
      ⟨(hfresh d hd).1, (hfresh d hd).2.2⟩⟩, List.nodup_cons.2 ⟨fun hmem => ?_, hnodup⟩⟩
    obtain ⟨d, hd, heq⟩ := List.mem_map.1 hmem
    exact (hfresh d hd).2.1 heq.symm

/-- With some names counted as seen before the batch. -/
theorem refuses_of_go {seen : Std.HashSet String} (h : refused?.go s seen batch = some name) :
    ∃ before c after, batch = before ++ c :: after ∧ c.name = name ∧
      (s.get? name ≠ none ∨ name ∈ seen ∨ name ∈ before.map CompiledClass.name) ∧
      (∀ d ∈ before, s.get? d.name = none ∧ d.name ∉ seen) ∧
      (before.map CompiledClass.name).Nodup := by
  induction batch generalizing seen with
  | nil => cases h
  | cons c batch ih =>
    rw [refused?.go] at h
    split_ifs at h with hc
    · cases h
      refine ⟨[], c, batch, rfl, rfl, ?_, by simp, by simp⟩
      rw [Bool.or_eq_true, contains_eq, Option.isSome_iff_ne_none,
        Std.HashSet.contains_iff_mem] at hc
      exact hc.imp_right .inl
    · simp only [Bool.or_eq_true, not_or, Bool.not_eq_true, contains_eq_false] at hc
      obtain ⟨before, d, after, rfl, hd, hused, hfresh, hnodup⟩ := ih h
      simp only [Std.HashSet.mem_insert, beq_iff_eq, not_or] at hfresh hused
      refine ⟨c :: before, d, after, rfl, hd, ?_, List.forall_mem_cons.2
        ⟨⟨hc.1, by simpa using hc.2⟩, fun e he => ⟨(hfresh e he).1, (hfresh e he).2.2⟩⟩,
        List.nodup_cons.2 ⟨fun hmem => ?_, hnodup⟩⟩
      · rw [List.map_cons, List.mem_cons]
        rcases hused with hused | (hused | hused) | hused
        · exact .inl hused
        · exact .inr (.inr (.inl hused.symm))
        · exact .inr (.inl hused)
        · exact .inr (.inr (.inr hused))
      · obtain ⟨e, he, heq⟩ := List.mem_map.1 hmem
        exact (hfresh e he).2.1 heq.symm

/-- A batch is taken as a whole, or refused for its first name in use. -/
theorem defineAll_spec (s : ClassStore) (batch : List CompiledClass) :
    (∃ s', s.defineAll batch = .ok (batch.length, s') ∧ s.Adds batch s') ∨
      ∃ name, s.defineAll batch = .error name ∧ s.Refuses batch name := by
  unfold defineAll
  cases h : s.refused? batch with
  | none =>
    obtain ⟨hfresh, hnodup⟩ := fresh_of_go h
    exact .inl ⟨_, rfl, adds_foldl (fun c hc => (hfresh c hc).1) hnodup⟩
  | some name =>
    obtain ⟨before, c, after, hbatch, hc, hused, hfresh, hnodup⟩ := refuses_of_go h
    exact .inr ⟨name, rfl, before, c, after, hbatch, hc,
      hused.imp_right (Or.resolve_left · Std.HashSet.not_mem_empty),
      fun d hd => (hfresh d hd).1, hnodup⟩

/-- A class is taken if its name is new. -/
theorem define_spec (s : ClassStore) (c : CompiledClass) :
    (∃ s', s.define c = (true, s') ∧ s.Adds [c] s') ∨
      (s.define c = (false, s) ∧ s.get? c.name ≠ none) := by
  unfold define
  split_ifs with h
  · rw [contains_eq, Option.isSome_iff_ne_none] at h
    exact .inr ⟨rfl, h⟩
  · rw [Bool.not_eq_true, contains_eq_false] at h
    have hadds : s.Adds [c] ([c].foldl insert s) := adds_foldl (by simpa using h) (by simp)
    exact .inl ⟨_, rfl, hadds⟩

theorem Adds.get?_eq_some (h : s.Adds batch s') {bytes : List UInt8}
    (hget : s.get? name = some bytes) : s'.get? name = some bytes := by
  rw [h.others name fun hmem => ?_, hget]
  obtain ⟨c, hc, rfl⟩ := List.mem_map.1 hmem
  rw [h.absent c hc] at hget
  cases hget

/-- The names that are new in the store are those of the classes it takes. -/
theorem Adds.gained_perm (h : s.Adds batch s') :
    (s'.names.filter fun name => !s.contains name).Perm (batch.map CompiledClass.name) := by
  refine (List.perm_ext_iff_of_nodup (nodup_names.filter _) h.distinct).2 fun name => ?_
  simp only [List.mem_filter, mem_names, Bool.not_eq_true', contains_eq_false]
  constructor
  · rintro ⟨hafter, hbefore⟩
    by_contra hmem
    exact hafter ((h.others name hmem).trans hbefore)
  · intro hmem
    obtain ⟨c, hc, rfl⟩ := List.mem_map.1 hmem
    simp [h.added c hc, h.absent c hc]

theorem Adds.names_perm (h : s.Adds batch s') :
    s'.names.Perm (s.names ++ batch.map CompiledClass.name) := by
  have hdisjoint : ∀ name ∈ s.names, name ∉ batch.map CompiledClass.name := by
    intro name hname hmem
    obtain ⟨c, hc, rfl⟩ := List.mem_map.1 hmem
    exact mem_names.1 hname (h.absent c hc)
  refine (List.perm_ext_iff_of_nodup nodup_names (List.nodup_append'.2
    ⟨nodup_names, h.distinct, hdisjoint⟩)).2 fun name => ?_
  rw [List.mem_append, mem_names, mem_names]
  by_cases hmem : name ∈ batch.map CompiledClass.name
  · obtain ⟨c, hc, rfl⟩ := List.mem_map.1 hmem
    simp [h.added c hc, hmem]
  · rw [h.others name hmem]
    simp [hmem]

end ClassStore

/-- Characters are ordered as the bytes that they are encoded in, whatever follows. -/
theorem utf8EncodeChar_lt {c d : Char} (h : c < d) (x y : List UInt8) :
    String.utf8EncodeChar c ++ x < String.utf8EncodeChar d ++ y := by
  have hlt : c.val.toNat < d.val.toNat := h
  have hmax : d.val.toNat < 1114112 := by
    have := d.valid
    rcases this with h | h <;> omega
  have hthird (k : Nat) : k / 4096 = k / 64 / 64 := by omega
  have hfourth (k : Nat) : k / 262144 = k / 64 / 64 / 64 := by omega
  simp only [String.utf8EncodeChar, hthird, hfourth]
  generalize c.val.toNat = m at hlt
  generalize d.val.toNat = n at hlt hmax
  split_ifs <;>
    simp only [List.cons_append, List.nil_append, List.cons_lt_cons_iff, UInt8.lt_iff_toNat_lt,
      ← UInt8.toNat_inj, UInt8.toNat_ofNat'] <;> omega

theorem utf8Encode_lt {s t : List Char} (h : s < t) :
    s.flatMap String.utf8EncodeChar < t.flatMap String.utf8EncodeChar := by
  induction h with
  | @nil d t =>
    have hsome : String.utf8EncodeChar d ≠ [] := by
      simp only [String.utf8EncodeChar]
      split_ifs <;> simp
    obtain ⟨byte, rest, hencode⟩ := List.exists_cons_of_ne_nil hsome
    rw [List.flatMap_cons, hencode]
    exact List.nil_lt_cons _ _
  | rel h => exact utf8EncodeChar_lt h _ _
  | cons h ih => exact List.append_left_lt ih

/-- The names of a store are in the order of their bytes. -/
theorem ClassStore.names_increasing (s : ClassStore) :
    s.names.Pairwise fun m n => m.toUTF8.data.toList < n.toUTF8.data.toList := by
  have hbytes (name : String) :
      name.toUTF8.data.toList = name.toList.flatMap String.utf8EncodeChar := by
    rw [String.toUTF8, ← String.utf8Encode_toList, List.utf8Encode]
    simp
  refine (Std.TreeMap.ordered_keys (t := s.classes)).imp fun {m n} h => ?_
  rw [hbytes, hbytes]
  exact utf8Encode_lt (String.lt_iff.1 (compareOfLessAndEq_eq_lt.1 h))

namespace SharedStore

inductive Request where
  | define (c : CompiledClass)
  | defineAll (batch : List CompiledClass)
  | compile (settings : Settings) (unit : UnitName) (script : Script)
  /-- To define the classes of a unit one by one. -/
  | defineIn (unit : CompiledUnit)

inductive Reply where
  | defined (accepted : Bool)
  | batch (result : Except String Nat)
  | compiled (result : Except SessionError CompiledUnit)
  | count (number : Nat)

inductive Task where
  | define (c : CompiledClass)
  | defineAll (batch : List CompiledClass)
  | compile (settings : Settings) (unit : UnitName) (script : Script)
  /-- The unit is compiled. -/
  | publish (unit : CompiledUnit)
  /-- Some classes are left, and some have been taken. -/
  | defineEach (rest : List CompiledClass) (count : Nat)
  | done (reply : Reply)

def Request.task : Request → Task
  | define c => .define c
  | defineAll batch => .defineAll batch
  | compile settings unit script => .compile settings unit script
  | defineIn unit => .defineEach unit.classes 0

def Task.step (s : ClassStore) : Task → Task × ClassStore
  | define c => (.done (.defined (s.define c).1), (s.define c).2)
  | defineAll batch =>
    match s.defineAll batch with
    | .ok (count, s) => (.done (.batch (.ok count)), s)
    | .error name => (.done (.batch (.error name)), s)
  | compile settings unit script =>
    match compileUnit settings unit script with
    | .ok compiled => (.publish compiled, s)
    | .error e => (.done (.compiled (.error (.compile e))), s)
  | publish unit =>
    match s.defineAll unit.classes with
    | .ok (_, s) => (.done (.compiled (.ok unit)), s)
    | .error name => (.done (.compiled (.error (.alreadyDefined name))), s)
  | defineEach [] count => (.done (.count count), s)
  | defineEach (c :: rest) count =>
    match s.define c with
    | (true, s) => (.defineEach rest (count + 1), s)
    | (false, s) => (.defineEach rest count, s)
  | done reply => (.done reply, s)

/-- What a step of a call does, and the classes that the store takes in it. -/
inductive Task.Steps (s : ClassStore) : Task → Task → ClassStore → List CompiledClass → Prop where
  | define {c : CompiledClass} {s' : ClassStore} (h : s.Adds [c] s') :
      Steps s (.define c) (.done (.defined true)) s' [c]
  | keep {c : CompiledClass} (h : s.get? c.name ≠ none) :
      Steps s (.define c) (.done (.defined false)) s []
  | defineAll {batch : List CompiledClass} {s' : ClassStore} (h : s.Adds batch s') :
      Steps s (.defineAll batch) (.done (.batch (.ok batch.length))) s' batch
  | refuse {batch : List CompiledClass} {name : String} (h : s.Refuses batch name) :
      Steps s (.defineAll batch) (.done (.batch (.error name))) s []
  | compile {settings : Settings} {unit : UnitName} {script : Script} {u : CompiledUnit}
      (h : compileUnit settings unit script = .ok u) :
      Steps s (.compile settings unit script) (.publish u) s []
  | fail {settings : Settings} {unit : UnitName} {script : Script} {e : CompileError}
      (h : compileUnit settings unit script = .error e) :
      Steps s (.compile settings unit script) (.done (.compiled (.error (.compile e)))) s []
  | publish {u : CompiledUnit} {s' : ClassStore} (h : s.Adds u.classes s') :
      Steps s (.publish u) (.done (.compiled (.ok u))) s' u.classes
  | clash {u : CompiledUnit} {name : String} (h : s.Refuses u.classes name) :
      Steps s (.publish u) (.done (.compiled (.error (.alreadyDefined name)))) s []
  | take {c : CompiledClass} {rest : List CompiledClass} {count : Nat} {s' : ClassStore}
      (h : s.Adds [c] s') :
      Steps s (.defineEach (c :: rest) count) (.defineEach rest (count + 1)) s' [c]
  | skip {c : CompiledClass} {rest : List CompiledClass} {count : Nat}
      (h : s.get? c.name ≠ none) :
      Steps s (.defineEach (c :: rest) count) (.defineEach rest count) s []
  | finish {count : Nat} : Steps s (.defineEach [] count) (.done (.count count)) s []
  | done {reply : Reply} : Steps s (.done reply) (.done reply) s []

theorem Task.steps (s : ClassStore) (t : Task) :
    ∃ added, t.Steps s (t.step s).1 (t.step s).2 added := by
  cases t with
  | define c =>
    rw [step]
    obtain ⟨s', h, hadds⟩ | ⟨h, hget⟩ := s.define_spec c <;> rw [h]
    · exact ⟨_, .define hadds⟩
    · exact ⟨_, .keep hget⟩
  | defineAll batch =>
    rw [step]
    obtain ⟨s', h, hadds⟩ | ⟨name, h, hrefuses⟩ := s.defineAll_spec batch <;> rw [h]
    · exact ⟨_, .defineAll hadds⟩
    · exact ⟨_, .refuse hrefuses⟩
  | compile settings unit script =>
    rw [step]
    cases h : compileUnit settings unit script with
    | ok u => exact ⟨_, .compile h⟩
    | error e => exact ⟨_, .fail h⟩
  | publish u =>
    rw [step]
    obtain ⟨s', h, hadds⟩ | ⟨name, h, hrefuses⟩ := s.defineAll_spec u.classes <;> rw [h]
    · exact ⟨_, .publish hadds⟩
    · exact ⟨_, .clash hrefuses⟩
  | defineEach rest count =>
    cases rest with
    | nil => exact ⟨_, .finish⟩
    | cons c rest =>
      rw [step]
      obtain ⟨s', h, hadds⟩ | ⟨h, hget⟩ := s.define_spec c <;> rw [h]
      · exact ⟨_, .take hadds⟩
      · exact ⟨_, .skip hget⟩
  | done reply => exact ⟨_, .done⟩

theorem Task.Steps.adds {s s' : ClassStore} {t t' : Task} {added : List CompiledClass}
    (h : t.Steps s t' s' added) : s.Adds added s' := by
  cases h with
  | define h | defineAll h | publish h | take h => exact h
  | keep | refuse | compile | fail | clash | skip | finish | done => exact .nil s

structure Call where
  request : Request
  task : Task

end SharedStore

/-- A store with the calls that were made on it, in their order. -/
structure SharedStore where
  store : ClassStore := {}
  calls : List SharedStore.Call := []

namespace SharedStore

inductive Action where
  /-- Someone makes a call. -/
  | call (request : Request)
  /-- The call with the number takes a step. -/
  | advance (i : Nat)

def step (s : SharedStore) : Action → SharedStore
  | .call request => { s with calls := s.calls ++ [⟨request, request.task⟩] }
  | .advance i =>
    match s.calls[i]? with
    | none => s
    | some call =>
      ⟨(call.task.step s.store).2, s.calls.set i ⟨call.request, (call.task.step s.store).1⟩⟩

def run (s : SharedStore) (actions : List Action) : SharedStore := actions.foldl step s

/-- The names that are new in the store after an action, each with the number of the call that
took the step. -/
def gained (s : SharedStore) : Action → List (Nat × String)
  | .call _ => []
  | .advance i =>
    ((s.step (.advance i)).store.names.filter fun name => !s.store.contains name).map (i, ·)

/-- The names that were accepted in a run, in time, each with the number of its call. -/
def accepted (s : SharedStore) : List Action → List (Nat × String)
  | [] => []
  | action :: actions => s.gained action ++ (s.step action).accepted actions

def boundBy (i : Nat) (log : List (Nat × String)) : List String :=
  (log.filter fun x => x.1 == i).map Prod.snd

inductive Account : Request → Task → List String → Prop where
  | define (c : CompiledClass) : Account (.define c) (.define c) []
  | defined (c : CompiledClass) : Account (.define c) (.done (.defined true)) [c.name]
  | kept (c : CompiledClass) : Account (.define c) (.done (.defined false)) []
  | defineAll (batch : List CompiledClass) : Account (.defineAll batch) (.defineAll batch) []
  | accepted {batch : List CompiledClass} {names : List String}
      (h : names.Perm (batch.map CompiledClass.name)) :
      Account (.defineAll batch) (.done (.batch (.ok batch.length))) names
  | refused (batch : List CompiledClass) (name : String) :
      Account (.defineAll batch) (.done (.batch (.error name))) []
  | compile (settings : Settings) (unit : UnitName) (script : Script) :
      Account (.compile settings unit script) (.compile settings unit script) []
  | compiled {settings : Settings} {unit : UnitName} {script : Script} {u : CompiledUnit}
      (h : compileUnit settings unit script = .ok u) :
      Account (.compile settings unit script) (.publish u) []
  | failed {settings : Settings} {unit : UnitName} {script : Script} {e : CompileError}
      (h : compileUnit settings unit script = .error e) :
      Account (.compile settings unit script) (.done (.compiled (.error (.compile e)))) []
  | published {settings : Settings} {unit : UnitName} {script : Script} {u : CompiledUnit}
      {names : List String} (h : compileUnit settings unit script = .ok u)
      (hnames : names.Perm (u.classes.map CompiledClass.name)) :
      Account (.compile settings unit script) (.done (.compiled (.ok u))) names
  | clashed {settings : Settings} {unit : UnitName} {script : Script} {u : CompiledUnit}
      (h : compileUnit settings unit script = .ok u) (name : String) :
      Account (.compile settings unit script) (.done (.compiled (.error (.alreadyDefined name)))) []
  | defining {unit : CompiledUnit} (before : List CompiledClass) {rest : List CompiledClass}
      {names : List String} (h : unit.classes = before ++ rest)
      (hnames : names.Sublist (before.map CompiledClass.name)) :
      Account (.defineIn unit) (.defineEach rest names.length) names
  | counted {unit : CompiledUnit} {names : List String}
      (h : names.Sublist (unit.classes.map CompiledClass.name)) :
      Account (.defineIn unit) (.done (.count names.length)) names

theorem Account.start (request : Request) : Account request request.task [] := by
  cases request with
  | define c => exact .define c
  | defineAll batch => exact .defineAll batch
  | compile settings unit script => exact .compile settings unit script
  | defineIn unit =>
    exact .defining [] (List.nil_append _).symm (List.nil_sublist _)

/-- A step of a call keeps its account. -/
theorem Account.steps {request : Request} {s s' : ClassStore} {t t' : Task}
    {names gained : List String} {added : List CompiledClass} (h : Account request t names)
    (hsteps : t.Steps s t' s' added) (hgained : gained.Perm (added.map CompiledClass.name)) :
    Account request t' (names ++ gained) := by
  cases hsteps with
  | define _ =>
    cases h
    rw [List.perm_singleton.1 hgained]
    exact .defined _
  | keep _ =>
    cases h
    rw [hgained.eq_nil]
    exact .kept _
  | defineAll _ =>
    cases h
    exact .accepted hgained
  | refuse _ =>
    cases h
    rw [hgained.eq_nil]
    exact .refused _ _
  | compile hcompile =>
    cases h
    rw [hgained.eq_nil]
    exact .compiled hcompile
  | fail hcompile =>
    cases h
    rw [hgained.eq_nil]
    exact .failed hcompile
  | publish _ =>
    cases h with
    | compiled hcompile => exact .published hcompile hgained
  | clash _ =>
    cases h with
    | compiled hcompile =>
      rw [hgained.eq_nil]
      exact .clashed hcompile _
  | @take c rest count _ _ =>
    cases h with
    | defining before hsplit hnames =>
      rw [List.perm_singleton.1 hgained]
      have hsublist : (names ++ [c.name]).Sublist ((before ++ [c]).map CompiledClass.name) := by
        rw [List.map_append]
        exact hnames.append (List.Sublist.refl _)
      have haccount := Account.defining (before ++ [c]) (by rw [hsplit, List.append_cons]) hsublist
      rwa [List.length_append] at haccount
  | @skip c rest count _ =>
    cases h with
    | defining before hsplit hnames =>
      rw [hgained.eq_nil, List.append_nil]
      refine .defining (before ++ [c]) (by rw [hsplit, List.append_cons]) ?_
      rw [List.map_append]
      exact hnames.trans (List.sublist_append_left _ _)
  | finish =>
    cases h with
    | defining before hsplit hnames =>
      rw [hgained.eq_nil, List.append_nil]
      rw [List.append_nil] at hsplit
      exact .counted (hsplit ▸ hnames)
  | done =>
    rw [hgained.eq_nil, List.append_nil]
    exact h

theorem run_nil (s : SharedStore) : s.run [] = s := rfl

theorem run_cons (s : SharedStore) (action : Action) (actions : List Action) :
    s.run (action :: actions) = (s.step action).run actions := rfl

theorem run_append (s : SharedStore) (first second : List Action) :
    s.run (first ++ second) = (s.run first).run second := List.foldl_append

/-- A call that takes a step: what the step does, and what it gains. -/
theorem step_advance {s : SharedStore} {i : Nat} {call : Call} (h : s.calls[i]? = some call) :
    ∃ task added, call.task.Steps s.store task (s.step (.advance i)).store added ∧
      (s.step (.advance i)).calls = s.calls.set i ⟨call.request, task⟩ ∧
      ((s.gained (.advance i)).map Prod.snd).Perm (added.map CompiledClass.name) := by
  obtain ⟨added, hsteps⟩ := call.task.steps s.store
  have hstep : s.step (.advance i) = ⟨(call.task.step s.store).2,
      s.calls.set i ⟨call.request, (call.task.step s.store).1⟩⟩ := by
    simp only [step, h]
  refine ⟨(call.task.step s.store).1, added, by rwa [hstep], by rw [hstep], ?_⟩
  rw [gained, List.map_map, hstep]
  simpa [Function.comp_def] using hsteps.adds.gained_perm

theorem step_advance_of_none {s : SharedStore} {i : Nat} (h : s.calls[i]? = none) :
    s.step (.advance i) = s := by
  simp only [step, h]

theorem gained_of_none {s : SharedStore} {i : Nat} (h : s.calls[i]? = none) :
    s.gained (.advance i) = [] := by
  rw [gained, step_advance_of_none h, List.map_eq_nil_iff, List.filter_eq_nil_iff]
  intro name hname
  simpa [ClassStore.contains_eq_false] using ClassStore.mem_names.1 hname

/-- Whatever happens, the store takes some classes. -/
theorem exists_adds (s : SharedStore) (action : Action) :
    ∃ added, s.store.Adds added (s.step action).store ∧
      ((s.gained action).map Prod.snd).Perm (added.map CompiledClass.name) := by
  cases action with
  | call request => exact ⟨[], .nil _, List.Perm.refl _⟩
  | advance i =>
    cases h : s.calls[i]? with
    | none =>
      rw [step_advance_of_none h, gained_of_none h]
      exact ⟨[], .nil _, List.Perm.refl _⟩
    | some call =>
      obtain ⟨task, added, hsteps, -, hgained⟩ := step_advance h
      exact ⟨added, hsteps.adds, hgained⟩

theorem get?_run {s : SharedStore} {name : String} {bytes : List UInt8} (actions : List Action)
    (h : s.store.get? name = some bytes) : (s.run actions).store.get? name = some bytes := by
  induction actions generalizing s with
  | nil => exact h
  | cons action actions ih =>
    obtain ⟨added, hadds, -⟩ := s.exists_adds action
    exact ih (hadds.get?_eq_some h)

theorem names_run (s : SharedStore) (actions : List Action) :
    (s.run actions).store.names.Perm (s.store.names ++ (s.accepted actions).map Prod.snd) := by
  induction actions generalizing s with
  | nil => exact .of_eq (List.append_nil _).symm
  | cons action actions ih =>
    obtain ⟨added, hadds, hgained⟩ := s.exists_adds action
    rw [accepted, List.map_append, ← List.append_assoc]
    exact (ih (s.step action)).trans
      ((hadds.names_perm.trans (hgained.symm.append_left _)).append_right _)

structure Accounted (s : SharedStore) (log : List (Nat × String)) : Prop where
  calls (i : Nat) (call : Call) (h : s.calls[i]? = some call) :
    Account call.request call.task (boundBy i log)
  rest (i : Nat) (h : s.calls[i]? = none) : boundBy i log = []

theorem boundBy_append (i : Nat) (first second : List (Nat × String)) :
    boundBy i (first ++ second) = boundBy i first ++ boundBy i second := by
  simp [boundBy]

theorem boundBy_gained (s : SharedStore) (i j : Nat) : boundBy j (s.gained (.advance i)) =
    if i = j then (s.gained (.advance i)).map Prod.snd else [] := by
  split_ifs with h
  · simp [boundBy, gained, List.filter_map, Function.comp_def, h]
  · simp [boundBy, gained, List.filter_map, Function.comp_def, h]

theorem Accounted.step {s : SharedStore} {log : List (Nat × String)} (h : s.Accounted log)
    (action : Action) : (s.step action).Accounted (log ++ s.gained action) := by
  cases action with
  | call request =>
    rw [gained, List.append_nil]
    refine ⟨fun i call hcall => ?_, fun i hnone => h.rest i ?_⟩
    · rcases Nat.lt_trichotomy i s.calls.length with hlt | rfl | hgt
      · rw [SharedStore.step, List.getElem?_append_left hlt] at hcall
        exact h.calls i call hcall
      · rw [SharedStore.step, List.getElem?_concat_length] at hcall
        cases hcall
        rw [h.rest _ (List.getElem?_eq_none (Nat.le_refl _))]
        exact .start request
      · have hlt := (List.getElem?_eq_some_iff.1 hcall).1
        simp only [SharedStore.step, List.length_append, List.length_singleton] at hlt
        omega
    · rw [List.getElem?_eq_none_iff] at hnone ⊢
      simp only [SharedStore.step, List.length_append, List.length_singleton] at hnone
      omega
  | advance i =>
    cases hi : s.calls[i]? with
    | none =>
      rw [step_advance_of_none hi, gained_of_none hi, List.append_nil]
      exact h
    | some call =>
      obtain ⟨task, added, hsteps, hcalls, hgained⟩ := step_advance hi
      refine ⟨fun j other hj => ?_, fun j hnone => ?_⟩
      · rw [hcalls, List.getElem?_set] at hj
        rw [boundBy_append, boundBy_gained]
        split_ifs at hj ⊢ with hij
        · cases hj
          subst hij
          exact (h.calls i call hi).steps hsteps hgained
        · rw [List.append_nil]
          exact h.calls j other hj
      · have hne : i ≠ j := by
          rintro rfl
          rw [hcalls, List.getElem?_eq_none_iff, List.length_set, ← List.getElem?_eq_none_iff, hi]
            at hnone
          cases hnone
        rw [hcalls, List.getElem?_set_ne hne] at hnone
        rw [boundBy_append, boundBy_gained, if_neg hne, List.append_nil]
        exact h.rest j hnone

theorem Accounted.run {s : SharedStore} {log : List (Nat × String)} (h : s.Accounted log)
    (actions : List Action) : (s.run actions).Accounted (log ++ s.accepted actions) := by
  induction actions generalizing s log with
  | nil =>
    rw [accepted, List.append_nil]
    exact h
  | cons action actions ih =>
    rw [accepted, ← List.append_assoc]
    exact ih (h.step action)

def Task.remaining : Task → Nat
  | define _ | defineAll _ | publish _ => 1
  | compile .. => 2
  | defineEach rest _ => rest.length + 1
  | done _ => 0

theorem Task.Steps.remaining_le {s s' : ClassStore} {t t' : Task} {added : List CompiledClass}
    (h : t.Steps s t' s' added) : t'.remaining ≤ t.remaining - 1 := by
  cases h <;> simp [Task.remaining]

theorem Task.exists_done {t : Task} (h : t.remaining = 0) : ∃ reply, t = .done reply := by
  cases t with
  | done reply => exact ⟨reply, rfl⟩
  | _ => cases h

def Action.advances (i : Nat) : Action → Bool
  | call _ => false
  | advance j => i == j

/-- A call keeps its request, and comes forward with each of its steps. -/
theorem exists_call_step {s : SharedStore} {i : Nat} {call : Call} (h : s.calls[i]? = some call)
    (action : Action) : ∃ task, (s.step action).calls[i]? = some ⟨call.request, task⟩ ∧
      task.remaining ≤ call.task.remaining - if action.advances i then 1 else 0 := by
  cases action with
  | call request =>
    have hlt := (List.getElem?_eq_some_iff.1 h).1
    exact ⟨call.task, by rw [step, List.getElem?_append_left hlt, h], Nat.le_refl _⟩
  | advance j =>
    by_cases hij : i = j
    · subst hij
      obtain ⟨task, added, hsteps, hcalls, -⟩ := step_advance h
      refine ⟨task, ?_, by simpa [Action.advances] using hsteps.remaining_le⟩
      rw [hcalls, List.getElem?_set_self (List.getElem?_eq_some_iff.1 h).1]
    · refine ⟨call.task, ?_, Nat.le_of_eq (by simp [Action.advances, hij])⟩
      cases hj : s.calls[j]? with
      | none => rw [step_advance_of_none hj, h]
      | some other =>
        obtain ⟨task, added, -, hcalls, -⟩ := step_advance hj
        rw [hcalls, List.getElem?_set_ne (Ne.symm hij), h]

theorem exists_call_run {s : SharedStore} {i : Nat} {call : Call} (h : s.calls[i]? = some call)
    (actions : List Action) : ∃ task, (s.run actions).calls[i]? = some ⟨call.request, task⟩ ∧
      task.remaining ≤ call.task.remaining - actions.countP (Action.advances i) := by
  induction actions generalizing s call with
  | nil => exact ⟨call.task, h, Nat.le_refl _⟩
  | cons action actions ih =>
    obtain ⟨task, htask, hle⟩ := exists_call_step h action
    obtain ⟨last, hlast, hle'⟩ := ih htask
    refine ⟨last, hlast, ?_⟩
    rw [List.countP_cons]
    dsimp only at hle'
    omega

end SharedStore

namespace ClassStore

def defineNext (x : Nat × ClassStore) (c : CompiledClass) : Nat × ClassStore :=
  (x.1 + (x.2.define c).1.toNat, (x.2.define c).2)

theorem defineEach_eq (s : ClassStore) (classes : List CompiledClass) :
    s.defineEach classes = classes.foldl defineNext (0, s) := by
  unfold defineEach
  congr 1
  funext ⟨count, s⟩ c
  dsimp only [defineNext]
  rcases s.define c with ⟨accepted, s'⟩
  cases accepted <;> rfl

theorem foldl_defineNext (count : Nat) (s : ClassStore) (classes : List CompiledClass) :
    classes.foldl defineNext (count, s) =
      (count + (s.defineEach classes).1, (s.defineEach classes).2) := by
  induction classes generalizing count s with
  | nil => rfl
  | cons c classes ih =>
    rw [defineEach_eq, List.foldl_cons, List.foldl_cons, defineNext, defineNext, ih, ih]
    simp [Nat.add_assoc]

/-- To define classes one by one is to define the first and then the others. -/
theorem defineEach_cons (s : ClassStore) (c : CompiledClass) (rest : List CompiledClass) :
    s.defineEach (c :: rest) = ((s.define c).1.toNat + ((s.define c).2.defineEach rest).1,
      ((s.define c).2.defineEach rest).2) := by
  rw [defineEach_eq, List.foldl_cons, defineNext, Nat.zero_add, foldl_defineNext]

end ClassStore

namespace SharedStore

/-- What a request does to a store that nobody else uses. -/
def Request.alone (s : ClassStore) : Request → Reply × ClassStore
  | define c => (.defined (s.define c).1, (s.define c).2)
  | defineAll batch =>
    match s.defineAll batch with
    | .ok (count, s) => (.batch (.ok count), s)
    | .error name => (.batch (.error name), s)
  | compile settings unit script =>
    match s.compile settings unit script with
    | .ok (compiled, s) => (.compiled (.ok compiled), s)
    | .error e => (.compiled (.error e), s)
  | defineIn unit => (.count (s.defineEach unit.classes).1, (s.defineEach unit.classes).2)

theorem run_defineEach (s : ClassStore) (request : Request) (rest : List CompiledClass)
    (count : Nat) :
    run ⟨s, [⟨request, .defineEach rest count⟩]⟩ (List.replicate (rest.length + 1) (.advance 0)) =
      ⟨(s.defineEach rest).2, [⟨request, .done (.count (count + (s.defineEach rest).1))⟩]⟩ := by
  induction rest generalizing s count with
  | nil => rfl
  | cons c rest ih =>
    rw [ClassStore.defineEach_cons, List.length_cons, List.replicate_succ]
    have hstep : step ⟨s, [⟨request, .defineEach (c :: rest) count⟩]⟩ (.advance 0) =
        ⟨(s.define c).2, [⟨request, .defineEach rest (count + (s.define c).1.toNat)⟩]⟩ := by
      obtain ⟨s', h, -⟩ | ⟨h, -⟩ := s.define_spec c <;> simp [step, Task.step, h]
    rw [run_cons, hstep, ih, Nat.add_assoc]

/-- A call whose steps nothing comes between does what the request does alone. -/
theorem run_alone (s : ClassStore) (request : Request) :
    run ⟨s, [⟨request, request.task⟩]⟩ (List.replicate request.task.remaining (.advance 0)) =
      ⟨(request.alone s).2, [⟨request, .done (request.alone s).1⟩]⟩ := by
  cases request with
  | define c => rfl
  | defineAll batch =>
    simp only [Request.task, Task.remaining, List.replicate, run_cons, run_nil, step, Request.alone,
      Task.step, List.getElem?_cons_zero, List.set_cons_zero]
    rcases s.defineAll batch with name | ⟨count, s'⟩ <;> rfl
  | compile settings unit script =>
    simp only [Request.task, Task.remaining, List.replicate, run_cons, run_nil, step, Request.alone,
      Task.step, ClassStore.compile, List.getElem?_cons_zero, List.set_cons_zero]
    cases compileUnit settings unit script with
    | error e => rfl
    | ok u =>
      dsimp only
      rcases s.defineAll u.classes with name | ⟨count, s'⟩ <;> rfl
  | defineIn unit =>
    have hrun := run_defineEach s (.defineIn unit) unit.classes 0
    rw [Nat.zero_add] at hrun
    exact hrun

structure Safe (actions : List Action) : Prop where
  /-- Each step of a call is atomic and does to the store what the call is told. -/
  steps (front back : List Action) (i : Nat) (call : Call)
    (h : actions = front ++ .advance i :: back) (hcall : (run {} front).calls[i]? = some call) :
    ∃ task added, call.task.Steps (run {} front).store task
      (run {} (front ++ [.advance i])).store added ∧
      (run {} (front ++ [.advance i])).calls[i]? = some ⟨call.request, task⟩
  /-- What is in the store stays there. -/
  stays (front back : List Action) (h : actions = front ++ back) (name : String)
    (bytes : List UInt8) (hget : (run {} front).store.get? name = some bytes) :
    (run {} actions).store.get? name = some bytes
  /-- What the calls are told agrees with the names that they have bound. -/
  accounts (i : Nat) (call : Call) (h : (run {} actions).calls[i]? = some call) :
    Account call.request call.task (boundBy i (accepted {} actions))
  /-- No name is accepted twice, and the store has those that were accepted. -/
  distinct : ((accepted {} actions).map Prod.snd).Nodup
  names : (run {} actions).store.names.Perm ((accepted {} actions).map Prod.snd)
  size : (run {} actions).store.size = (accepted {} actions).length
  increasing : (run {} actions).store.names.Pairwise
    fun m n => m.toUTF8.data.toList < n.toUTF8.data.toList
  /-- A call that takes its steps returns, whatever comes between them. -/
  returns (more : List Action) (i : Nat) (call : Call) (h : (run {} actions).calls[i]? = some call)
    (hmore : call.task.remaining ≤ more.countP (Action.advances i)) :
    ∃ reply, (run {} (actions ++ more)).calls[i]? = some ⟨call.request, .done reply⟩

/-- Every run of calls on a shared store is safe, and the calls are those of the store itself. -/
theorem safe_of_run : (∀ actions, Safe actions) ∧ ∀ (s : ClassStore) (request : Request),
    run ⟨s, [⟨request, request.task⟩]⟩ (List.replicate request.task.remaining (.advance 0)) =
      ⟨(request.alone s).2, [⟨request, .done (request.alone s).1⟩]⟩ := by
  refine ⟨fun actions => ?_, run_alone⟩
  have hnames : (run {} actions).store.names.Perm ((accepted {} actions).map Prod.snd) :=
    names_run {} actions
  have hstart : Accounted {} [] := ⟨by simp, by simp [boundBy]⟩
  refine ⟨?_, ?_, (hstart.run actions).calls, hnames.nodup_iff.1 ClassStore.nodup_names, hnames, ?_,
    ClassStore.names_increasing _, ?_⟩
  · intro front back i call h hcall
    obtain ⟨task, added, hsteps, hcalls, -⟩ := step_advance hcall
    refine ⟨task, added, ?_, ?_⟩ <;> rw [run_append, run_cons, run_nil]
    · exact hsteps
    · rw [hcalls, List.getElem?_set_self (List.getElem?_eq_some_iff.1 hcall).1]
  · rintro front back rfl name bytes hget
    rw [run_append]
    exact get?_run back hget
  · rw [← ClassStore.length_names, hnames.length_eq, List.length_map]
  · intro more i call hcall hmore
    obtain ⟨task, htask, hle⟩ := exists_call_run hcall more
    obtain ⟨reply, rfl⟩ := Task.exists_done (t := task) (by omega)
    exact ⟨reply, by rwa [run_append]⟩

end SharedStore

end SmalltalkJvm
