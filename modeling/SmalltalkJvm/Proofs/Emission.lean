import SmalltalkJvm.Proofs.Outline

/-! # Code that a state emits

How a compiler state goes on while a construct is compiled: the draft of its method runs the
construct's code, the markers of the blocks that answer are attached to the innermost region, and
the blocks are completed in order, each under a name of its own.

Everything is said for the names that the blocks really get, so the code may mention them.
-/

namespace SmalltalkJvm

open Compile

variable (env : Env)

def attach (markers : List String) (regions : List Region) : List Region :=
  regions.modifyHead fun region => { region with markers := region.markers ++ markers.toArray }

@[simp] theorem attach_nil (regions : List Region) : attach [] regions = regions := by
  cases regions <;> simp [attach]

theorem attach_append (first second : List String) (regions : List Region) :
    attach (first ++ second) regions = attach second (attach first regions) := by
  cases regions with
  | nil => rfl
  | cons region regions =>
    simp only [attach, List.modifyHead_cons, List.cons.injEq, Region.mk.injEq, true_and, and_true]
    apply Array.toList_inj.1
    simp

def Agree (names : Nat → String) (k : Nat) (methods : List Method) : Prop :=
  ∀ i m, methods[i]? = some m → names (k + i) = m.name

theorem Agree.append {names : Nat → String} {k : Nat} {first second : List Method}
    (h : Agree names k (first ++ second)) :
    Agree names k first ∧ Agree names (k + first.length) second := by
  refine ⟨fun i m hm => h i m ?_, fun i m hm => ?_⟩
  · rw [List.getElem?_append_left (List.getElem?_eq_some_iff.1 hm).1, hm]
  · rw [Nat.add_assoc]
    refine h (first.length + i) m ?_
    rw [List.getElem?_append_right (by omega), Nat.add_sub_cancel_left, hm]

theorem exists_agree (k : Nat) (methods : List Method) : ∃ names, Agree names k methods :=
  ⟨fun n => (methods[n - k]?.map Method.name).getD "", fun i m hm => by simp [hm]⟩

structure BlockLiteral.Compiled (names : Nat → String) (i : Nat) (literal : BlockLiteral)
    (method : Method) : Prop where
  name : names i = method.name
  access : method.access = Access.isPrivate ||| Access.isStatic ||| Access.isSynthetic
  descriptor : method.descriptor = env.library.blockDescriptor
  body :
    let code := literal.body.plan env literal.parameters (Draft.nilOperations env) names
      (i - (literal.body.blocks env).length)
    (code.run env (env.method env.blockLocals)).finish = .ok method.body

/-- The marker classes of a block: one if it answers from the method that created it. -/
def BlockLiteral.Marked (literal : BlockLiteral) (method : Method) (files : List ClassFile) :
    Prop :=
  if literal.escapes then
    ∃ file, markerClass env (env.markerName method.name) literal.span = .ok file ∧ files = [file]
  else files = []

/-- Methods and marker classes of blocks, which are numbered from `k` on. -/
inductive Blocks (names : Nat → String) :
    Nat → List BlockLiteral → List Method → List ClassFile → Prop where
  | nil (k : Nat) : Blocks names k [] [] []
  | cons {k : Nat} {literal : BlockLiteral} {literals : List BlockLiteral} {method : Method}
      {methods : List Method} {first files : List ClassFile}
      (compiled : literal.Compiled env names k method) (marked : literal.Marked env method first)
      (rest : Blocks names (k + 1) literals methods files) :
      Blocks names k (literal :: literals) (method :: methods) (first ++ files)

theorem Blocks.append {names : Nat → String} {k : Nat} {l₁ l₂ : List BlockLiteral}
    {m₁ m₂ : List Method} {f₁ f₂ : List ClassFile} (h₁ : Blocks env names k l₁ m₁ f₁)
    (h₂ : Blocks env names (k + l₁.length) l₂ m₂ f₂) :
    Blocks env names k (l₁ ++ l₂) (m₁ ++ m₂) (f₁ ++ f₂) := by
  induction h₁ with
  | nil k => exact h₂
  | cons compiled marked rest ih =>
    rw [List.append_assoc]
    refine .cons compiled marked (ih ?_)
    rw [List.length_cons] at h₂
    rwa [Nat.add_right_comm, Nat.add_assoc]

theorem Blocks.length_eq {names : Nat → String} {k : Nat} {literals : List BlockLiteral}
    {methods : List Method} {files : List ClassFile}
    (h : Blocks env names k literals methods files) : methods.length = literals.length := by
  induction h with
  | nil k => rfl
  | cons compiled marked rest ih => rw [List.length_cons, List.length_cons, ih]

theorem Blocks.compiled {names : Nat → String} {k : Nat} {literals : List BlockLiteral}
    {methods : List Method} {files : List ClassFile} (h : Blocks env names k literals methods files)
    {i : Nat} {literal : BlockLiteral} {method : Method} (hl : literals[i]? = some literal)
    (hm : methods[i]? = some method) : literal.Compiled env names (k + i) method := by
  induction h generalizing i with
  | nil k => cases hl
  | cons compiled marked rest ih =>
    cases i with
    | zero =>
      cases hl
      cases hm
      exact compiled
    | succ i =>
      rw [Nat.add_comm i, ← Nat.add_assoc]
      exact ih hl hm

/-- The state goes on by the code of a plan, on the way completing blocks. -/
structure Emits (s s' : State) (p : Plan) (literals : List BlockLiteral) (methods : List Method)
    (files : List ClassFile) : Prop where
  suspended : s'.suspended = s.suspended
  blocks : s'.blocks.toList = s.blocks.toList ++ methods
  markers : s'.markers.toList = s.markers.toList ++ files
  length : methods.length = literals.length
  taken (name : String) : name ∈ s'.taken ↔ name ∈ s.taken ∨ name ∈ methods.map Method.name
  fresh : ∀ m ∈ methods, m.name ∉ s.taken
  nodup : (methods.map Method.name).Nodup
  legal : ∀ m ∈ methods, BlockName.isLegal m.name = true
  compiled (names : Nat → String) (h : Agree names s.blocks.size methods) :
    Blocks env names s.blocks.size literals methods files
  draft (names : Nat → String) (h : Agree names s.blocks.size methods) :
    s'.current.draft = (p names s.blocks.size).run env s.current.draft
  regions (names : Nat → String) (h : Agree names s.blocks.size methods) :
    s'.current.regions = attach (p names s.blocks.size).markers s.current.regions

theorem Emits.size {s s' : State} {p : Plan} {literals : List BlockLiteral} {methods : List Method}
    {files : List ClassFile} (h : Emits env s s' p literals methods files) :
    s'.blocks.size = s.blocks.size + literals.length := by
  rw [← Array.length_toList, h.blocks, List.length_append, Array.length_toList, h.length]

theorem Emits.trans {s s₁ s' : State} {p₁ p₂ : Plan} {l₁ l₂ : List BlockLiteral}
    {m₁ m₂ : List Method} {f₁ f₂ : List ClassFile} (h₁ : Emits env s s₁ p₁ l₁ m₁ f₁)
    (h₂ : Emits env s₁ s' p₂ l₂ m₂ f₂) :
    Emits env s s' (.append l₁.length p₁ p₂) (l₁ ++ l₂) (m₁ ++ m₂) (f₁ ++ f₂) := by
  have hagree {names : Nat → String} (h : Agree names s.blocks.size (m₁ ++ m₂)) :
      Agree names s.blocks.size m₁ ∧ Agree names s₁.blocks.size m₂ := by
    rw [h₁.size, ← h₁.length]
    exact h.append
  refine ⟨h₂.suspended.trans h₁.suspended, ?_, ?_, ?_, ?_, ?_, ?_,
    List.forall_mem_append.2 ⟨h₁.legal, h₂.legal⟩, ?_, ?_, ?_⟩
  · rw [h₂.blocks, h₁.blocks, List.append_assoc]
  · rw [h₂.markers, h₁.markers, List.append_assoc]
  · simp [h₁.length, h₂.length]
  · intro name
    rw [h₂.taken, h₁.taken, List.map_append, List.mem_append, or_assoc]
  · intro m hm
    rcases List.mem_append.1 hm with hm | hm
    · exact h₁.fresh m hm
    · exact fun hin => h₂.fresh m hm ((h₁.taken _).2 (.inl hin))
  · rw [List.map_append, List.nodup_append']
    refine ⟨h₁.nodup, h₂.nodup, fun name hname hname' => ?_⟩
    obtain ⟨m, hm, rfl⟩ := List.mem_map.1 hname'
    exact h₂.fresh m hm ((h₁.taken _).2 (.inr hname))
  · intro names h
    refine (h₁.compiled names (hagree h).1).append env ?_
    rw [← h₁.size]
    exact h₂.compiled names (hagree h).2
  · intro names h
    rw [h₂.draft names (hagree h).2, h₁.draft names (hagree h).1, h₁.size]
    rfl
  · intro names h
    rw [h₂.regions names (hagree h).2, h₁.regions names (hagree h).1, h₁.size]
    exact (attach_append ..).symm

/-- Scopes and pending messages take no part in the code. -/
theorem Emits.forget {s s' : State} {p : Plan} {literals : List BlockLiteral}
    {methods : List Method} {files : List ClassFile} (h : Emits env s s' p literals methods files)
    (scopes scopes' : ScopeStack) (pending pending' : List PendingSend) :
    Emits env { s with scopes, pending } { s' with scopes := scopes', pending := pending' } p
      literals methods files :=
  ⟨h.suspended, h.blocks, h.markers, h.length, h.taken, h.fresh, h.nodup, h.legal, h.compiled,
    h.draft, h.regions⟩

def State.withDraft (s : State) (draft : Draft) : State :=
  { s with current := { s.current with draft } }

@[simp] theorem State.withDraft_scopes (s : State) (draft : Draft) :
    (s.withDraft draft).scopes = s.scopes := rfl

/-- A state that goes on with nothing but its draft, code without blocks and markers. -/
theorem Emits.ofDraft {s : State} {p : Plan} {draft : Draft}
    (hdraft : ∀ names k, draft = (p names k).run env s.current.draft)
    (hmarkers : ∀ names k, (p names k).markers = []) :
    Emits env s (s.withDraft draft) p [] [] [] := by
  refine ⟨rfl, by simp [State.withDraft], by simp [State.withDraft], rfl, by simp [State.withDraft],
    by simp, by simp, by simp, fun _ _ => .nil _, fun _ _ => hdraft _ _, fun _ _ => ?_⟩
  rw [hmarkers]
  simp [State.withDraft]

theorem Emits.operations (s : State) (operations : List Operation) :
    Emits env s (s.withDraft (s.current.draft.runOperations operations)) (.operations operations)
      [] [] [] :=
  Emits.ofDraft env (fun _ _ => rfl) fun _ _ => rfl

def State.opened (s : State) (span : Span) : State :=
  { s with
    current :=
      { draft := s.current.draft.openRegion
        regions := { start := s.current.draft.nextLabel, span } :: s.current.regions } }

section

variable {s s₁ s' : State} {p : Plan} {literals : List BlockLiteral} {methods : List Method}
  {files : List ClassFile}

theorem Emits.region {span : Span} (h : Emits env (s.opened span) s₁ p literals methods files)
    {region : Region} {rest : List Region} (hr : s₁.current.regions = region :: rest)
    (hs : s' = { s₁ with
      current :=
        { draft := s₁.current.draft.closeRegion env region.start region.span region.markers.toList
          regions := rest } }) :
    Emits env s s' (.region true span p) literals methods files := by
  subst hs
  have hregion (names : Nat → String) (hn : Agree names s.blocks.size methods) :
      region = ⟨s.current.draft.nextLabel, span, (p names s.blocks.size).markers.toArray⟩ ∧
        rest = s.current.regions := by
    have hregions := h.regions names hn
    simpa [hr, attach, State.opened] using hregions
  refine ⟨h.suspended, h.blocks, h.markers, h.length, h.taken, h.fresh, h.nodup, h.legal,
    h.compiled, fun names hn => ?_, fun names hn => ?_⟩
  · obtain ⟨rfl, rfl⟩ := hregion names hn
    simp only
    rw [h.draft names hn]
    rfl
  · obtain ⟨rfl, rfl⟩ := hregion names hn
    simp [Plan.region, Code.markers]

theorem Emits.statement {span : Span} (isLast : Bool)
    (h : Emits env s s₁ (.region true span p) literals methods files) :
    Emits env s
      (s₁.withDraft (s₁.current.draft.settle env isLast s.current.draft.stack.depth))
      (.statement isLast span p) literals methods files := by
  refine ⟨h.suspended, h.blocks, h.markers, h.length, h.taken, h.fresh, h.nodup, h.legal,
    h.compiled, fun names hn => ?_, fun names hn => ?_⟩
  · rw [State.withDraft, h.draft names hn]
    rfl
  · rw [State.withDraft, h.regions names hn]
    rfl

end

def State.blockMade (s : State) (literal : BlockLiteral) (name : String)
    (files : List ClassFile) : State :=
  { s with
    current :=
      { draft := s.current.draft.runOperations (Operation.block env literal name)
        regions :=
          attach (if literal.escapes then [env.markerName name] else []) s.current.regions }
    markers := s.markers ++ files.toArray }

def State.entered (s : State) (name : String) (next : Nat) (scope : Scope) : State :=
  { s with
    current := { draft := env.method env.blockLocals }
    suspended := s.current :: s.suspended
    scopes := ⟨scope :: s.scopes.scopes⟩
    taken := s.taken.insert name
    nextBlock := next }

def State.left (s inner : State) (method : Method) : State :=
  { inner with
    current := s.current
    suspended := s.suspended
    scopes := s.scopes
    blocks := inner.blocks.push method }

/-- A block whose body was compiled and whose object was made. -/
theorem Emits.block {literal : BlockLiteral} {s inner : State} {name : String} {next : Nat}
    {scope : Scope} {methods : List Method} {files first : List ClassFile} {method : Method}
    (hfree : name ∉ s.taken) (hlegal : BlockName.isLegal name = true)
    (h : Emits env (s.entered env name next scope) inner
      (literal.body.plan env literal.parameters (Draft.nilOperations env))
      (literal.body.blocks env) methods files)
    (hfinish : inner.current.draft.finish = .ok method.body) (hname : method.name = name)
    (haccess : method.access = Access.isPrivate ||| Access.isStatic ||| Access.isSynthetic)
    (hdescriptor : method.descriptor = env.library.blockDescriptor)
    (hmarked : literal.Marked env method first) :
    Emits env s ((s.left inner method).blockMade env literal name first) (literal.plan env)
      (literal.body.blocks env ++ [literal]) (methods ++ [method]) (files ++ first) := by
  have hagree {names : Nat → String} (hn : Agree names s.blocks.size (methods ++ [method])) :
      Agree names s.blocks.size methods ∧
        names (s.blocks.size + (literal.body.blocks env).length) = name := by
    refine ⟨hn.append.1, ?_⟩
    rw [← h.length, ← hname]
    exact hn.append.2 0 method rfl
  refine ⟨rfl, ?_, ?_, ?_, ?_, ?_, ?_, ?_, ?_, ?_, ?_⟩
  · simp [State.blockMade, State.left, h.blocks, State.entered]
  · simp [State.blockMade, State.left, h.markers, State.entered]
  · simp [h.length]
  · intro x
    have := h.taken x
    simp only [State.entered, Std.HashSet.mem_insert, beq_iff_eq] at this
    simp only [State.blockMade, State.left, this, List.map_append, List.map_cons, List.map_nil,
      List.mem_append, List.mem_singleton, hname]
    grind
  · intro m hm
    rcases List.mem_append.1 hm with hm | hm
    · exact fun hin => h.fresh m hm (by simp [State.entered, hin])
    · rw [List.mem_singleton.1 hm, hname]
      exact hfree
  · rw [List.map_append, List.nodup_append']
    refine ⟨h.nodup, by simp, fun x hx hx' => ?_⟩
    obtain ⟨m, hm, rfl⟩ := List.mem_map.1 hx
    refine h.fresh m hm ?_
    simp only [List.map_cons, List.map_nil, List.mem_singleton, hname] at hx'
    simp [State.entered, hx']
  · refine List.forall_mem_append.2 ⟨h.legal, List.forall_mem_singleton.2 ?_⟩
    rw [hname]
    exact hlegal
  · intro names hn
    refine (h.compiled names (hagree hn).1).append env ?_
    have hcompiled : literal.Compiled env names (s.blocks.size + (literal.body.blocks env).length)
        method := by
      refine ⟨(hagree hn).2.trans hname.symm, haccess, hdescriptor, ?_⟩
      rw [Nat.add_sub_cancel, ← hfinish, h.draft names (hagree hn).1]
      rfl
    have hone := Blocks.cons hcompiled hmarked (.nil _)
    rw [List.append_nil] at hone
    exact hone
  · intro names hn
    simp only [BlockLiteral.plan, (hagree hn).2, Code.run]
    split_ifs <;> rfl
  · intro names hn
    simp only [BlockLiteral.plan, (hagree hn).2, Code.markers, List.nil_append]
    split_ifs with he <;> simp [Code.markers, State.blockMade, State.left, he]

/-- A state that goes on by the code of a plan, with the same scopes. -/
def Grows (s s' : State) (p : Plan) (literals : List BlockLiteral) : Prop :=
  s'.scopes = s.scopes ∧ ∃ methods files, Emits env s s' p literals methods files

/-- What compiling the body of a method comes to: its own scope is the innermost one. -/
def Sequence.Grows (parameters : List Ident) (whenEmpty : List Operation) (body : Sequence)
    (s s' : State) : Prop :=
  ∀ top rest, s.scopes = ⟨top :: rest⟩ → top.Declares parameters [] →
    (∃ top', s'.scopes = ⟨top' :: rest⟩) ∧ ∃ methods files,
      Emits env s s' (body.plan env parameters whenEmpty) (body.blocks env) methods files

section

variable {s s₁ s' : State} {p q : Plan} {l₁ l₂ literals : List BlockLiteral}

theorem Grows.trans (h₁ : Grows env s s₁ p l₁) (h₂ : Grows env s₁ s' q l₂) :
    Grows env s s' (.append l₁.length p q) (l₁ ++ l₂) := by
  obtain ⟨hscopes₁, methods₁, files₁, hemits₁⟩ := h₁
  obtain ⟨hscopes₂, methods₂, files₂, hemits₂⟩ := h₂
  exact ⟨hscopes₂.trans hscopes₁, _, _, hemits₁.trans env hemits₂⟩

theorem Grows.operations {operations : List Operation}
    (hs : s' = s.withDraft (s.current.draft.runOperations operations)) :
    Grows env s s' (.operations operations) [] := by
  subst hs
  exact ⟨rfl, _, _, Emits.operations env s operations⟩

theorem Grows.andOperations (h : Grows env s s₁ p literals) {operations : List Operation}
    (hs : s' = s₁.withDraft (s₁.current.draft.runOperations operations)) :
    Grows env s s' (.append literals.length p (.operations operations)) literals := by
  have := h.trans env (Grows.operations env hs)
  rwa [List.append_nil] at this

/-- What is pending takes no part in the code. -/
theorem Grows.withPending (h : Grows env s s' p literals) (before after : List PendingSend) :
    Grows env { s with pending := before } { s' with pending := after } p literals := by
  obtain ⟨hscopes, methods, files, hemits⟩ := h
  exact ⟨hscopes, methods, files, hemits.forget env _ _ _ _⟩

end

end SmalltalkJvm
