import Mathlib.Data.List.Forall2
import Mathlib.Data.List.Nodup
import SmalltalkJvm.Compile.State

/-! # Scopes after any operations

Scopes are opened and closed and names are declared and looked up, in any order. The declarations
that succeeded in the scopes still open can be told from the operations and their answers alone.
Whatever came before, an open scope holds these and nothing else: its names are distinct, and those
of one kind are numbered in the order in which they were declared, as long as 16 bits suffice for
their number.

What is done inside a scope, in it or in scopes opened later, leaves the scopes around it alone and
takes no name from it. So a name keeps its slot as long as its scope is open, and closing a scope
gives back the stack from before it was opened.
-/

namespace SmalltalkJvm

def SlotKind.resolution : SlotKind → UInt16 → Resolution
  | .temporary => .temporary
  | .argument => .argument

theorem SlotKind.resolution_ne_unresolved (kind : SlotKind) (slot : UInt16) :
    kind.resolution slot ≠ .unresolved := by
  cases kind <;> simp [resolution]

/-- A declaration that succeeded: the name without a colon and what it was bound to. -/
structure Declaration where
  name : String
  binding : Binding
  deriving DecidableEq, Repr

def slotsOf (kind : SlotKind) (made : List Declaration) : List Nat :=
  (made.filter (·.binding.kind = kind)).map (·.binding.slot.toNat)

theorem slotsOf_concat (kind : SlotKind) (made : List Declaration) (d : Declaration) :
    slotsOf kind (made ++ [d]) =
      if d.binding.kind = kind then slotsOf kind made ++ [d.binding.slot.toNat]
      else slotsOf kind made := by
  by_cases h : d.binding.kind = kind <;> simp [slotsOf, h]

/-- Where 16 bits suffice, the next slot is the next number. -/
theorem slotsOf_next {kind : SlotKind} {made : List Declaration} {next : UInt16}
    {d : Declaration}
    (h : (slotsOf kind made).length < 65536 → slotsOf kind made = List.range next)
    (hkind : d.binding.kind = kind) (hslot : d.binding.slot = next)
    (hfew : (slotsOf kind (made ++ [d])).length < 65536) :
    slotsOf kind (made ++ [d]) = List.range (next + 1 : UInt16) := by
  rw [slotsOf_concat, if_pos hkind, hslot] at hfew ⊢
  rw [List.length_append, List.length_singleton] at hfew
  have hslots := h (by omega)
  rw [hslots, List.length_range] at hfew
  rw [hslots, UInt16.toNat_add, UInt16.toNat_one, Nat.mod_eq_of_lt hfew, List.range_succ]

namespace Scope

/-- A scope holds the declarations given, in this order, and nothing else. -/
structure Holds (s : Scope) (made : List Declaration) : Prop where
  distinct : (made.map Declaration.name).Nodup
  temporaries_eq (hfew : (slotsOf .temporary made).length < 65536) :
    slotsOf .temporary made = List.range s.temporaries
  arguments_eq (hfew : (slotsOf .argument made).length < 65536) :
    slotsOf .argument made = List.range s.arguments
  bound_iff (name : String) (b : Binding) : s.bindings[name]? = some b ↔ ⟨name, b⟩ ∈ made

theorem holds_empty : Holds {} [] :=
  ⟨List.nodup_nil, fun _ => rfl, fun _ => rfl, by simp⟩

theorem Holds.notMem_iff {s : Scope} {made : List Declaration} (h : s.Holds made)
    (name : String) : name ∉ s.bindings ↔ ∀ d ∈ made, d.name ≠ name := by
  rw [Std.HashMap.mem_iff_isSome_getElem?, Option.isSome_iff_exists]
  constructor
  · rintro hnone d hd rfl
    exact hnone ⟨d.binding, (h.bound_iff d.name d.binding).2 hd⟩
  · rintro hnew ⟨b, hb⟩
    exact hnew ⟨name, b⟩ ((h.bound_iff name b).1 hb) rfl

/-- A new name gets the next slot of its kind. -/
theorem Holds.bind {s : Scope} {made : List Declaration} (h : s.Holds made) {name : String}
    (hfree : bareName name ∉ s.bindings) (kind : SlotKind) (span : Span) :
    (s.bind name kind span).Holds
      (made ++ [⟨bareName name, ⟨kind, s.nextSlot kind, span⟩⟩]) := by
  have hnew := (h.notMem_iff (bareName name)).1 hfree
  constructor
  · rw [List.map_append, List.map_singleton, List.nodup_append']
    refine ⟨h.distinct, List.nodup_singleton _, ?_⟩
    intro other hother hmem
    obtain ⟨d, hd, rfl⟩ := List.mem_map.1 hother
    exact hnew d hd (List.mem_singleton.1 hmem)
  · intro hfew
    cases kind with
    | temporary => exact slotsOf_next h.temporaries_eq rfl rfl hfew
    | argument =>
      rw [slotsOf_concat] at hfew ⊢
      exact h.temporaries_eq hfew
  · intro hfew
    cases kind with
    | temporary =>
      rw [slotsOf_concat] at hfew ⊢
      exact h.arguments_eq hfew
    | argument => exact slotsOf_next h.arguments_eq rfl rfl hfew
  · intro other b
    rw [List.mem_append, List.mem_singleton, ← h.bound_iff]
    by_cases heq : bareName name = other
    · subst heq
      have hnone : s.bindings[bareName name]? = none := Std.HashMap.getElem?_eq_none hfree
      simp [Scope.bind, hnone, eq_comm]
    · simp [Scope.bind, Std.HashMap.getElem?_insert, heq, Ne.symm heq]

theorem resolve_eq_resolution_iff (s : Scope) (name : String) (kind : SlotKind) (slot : UInt16) :
    s.resolve name = kind.resolution slot ↔
      ∃ b, s.bindings[bareName name]? = some b ∧ b.kind = kind ∧ b.slot = slot := by
  rw [resolve, binding?]
  cases s.bindings[bareName name]? with
  | none => simp [(kind.resolution_ne_unresolved slot).symm]
  | some b =>
    obtain ⟨boundKind, boundSlot, span⟩ := b
    cases boundKind <;> cases kind <;> simp [SlotKind.resolution]

theorem resolve_eq_unresolved_iff (s : Scope) (name : String) :
    s.resolve name = .unresolved ↔ bareName name ∉ s.bindings := by
  rw [resolve, binding?, Std.HashMap.mem_iff_isSome_getElem?]
  cases s.bindings[bareName name]? with
  | none => simp
  | some b =>
    obtain ⟨kind, slot, span⟩ := b
    cases kind <;> simp

/-- Every name that a scope binds has the same slot in another. -/
def Extends (s s' : Scope) : Prop :=
  ∀ (name : String) (b : Binding), s.bindings[name]? = some b → s'.bindings[name]? = some b

theorem Extends.refl (s : Scope) : s.Extends s := fun _ _ h => h

theorem Extends.trans {s s₁ s' : Scope} (h : s.Extends s₁) (k : s₁.Extends s') : s.Extends s' :=
  fun name b hb => k name b (h name b hb)

theorem extends_bind {s : Scope} {name : String} (hfree : bareName name ∉ s.bindings)
    (kind : SlotKind) (span : Span) : s.Extends (s.bind name kind span) := by
  intro other b hb
  have hne : bareName name ≠ other := by
    rintro rfl
    rw [Std.HashMap.getElem?_eq_none hfree] at hb
    cases hb
  simpa [Scope.bind, Std.HashMap.getElem?_insert, hne] using hb

end Scope

namespace ScopeStack

inductive Operation where
  | push
  | pop
  | declare (name : String) (kind : SlotKind) (span : Span)
  | resolve (name : String)
  deriving DecidableEq, Repr

inductive Answer where
  | done
  | slot (n : UInt16)
  | refusal (error : CompileError)
  | meaning (resolution : Resolution)
  deriving DecidableEq, Repr

def perform (s : ScopeStack) : Operation → Answer × ScopeStack
  | .push => (.done, s.push)
  | .pop => (.done, s.pop)
  | .declare name kind span =>
    match s.declare name kind span with
    | .ok (n, s') => (.slot n, s')
    | .error e => (.refusal e, s)
  | .resolve name => (.meaning (s.resolve name), s)

def run (s : ScopeStack) (operations : List Operation) : ScopeStack :=
  operations.foldl (fun s operation => (s.perform operation).2) s

def trace (s : ScopeStack) : List Operation → List (Operation × Answer)
  | [] => []
  | operation :: rest =>
    (operation, (s.perform operation).1) :: trace (s.perform operation).2 rest

/-- Keeps the declarations that succeeded in the scopes still open, innermost first. -/
def note (made : List (List Declaration)) : Operation × Answer → List (List Declaration)
  | (.push, _) => [] :: made
  | (.pop, _) => made.tail
  | (.declare name kind span, .slot n) =>
    made.modifyHead (· ++ [⟨bareName name, ⟨kind, n, span⟩⟩])
  | _ => made

/-- What was declared in the scopes still open, told from the operations and their answers. -/
def declared (events : List (Operation × Answer)) : List (List Declaration) :=
  events.foldl note []

theorem declare_of_notMem {top : Scope} {name : String} (h : bareName name ∉ top.bindings)
    (rest : List Scope) (kind : SlotKind) (span : Span) :
    declare ⟨top :: rest⟩ name kind span =
      .ok (top.nextSlot kind, ⟨top.bind name kind span :: rest⟩) := by
  simp [declare, conflict?, Scope.conflict?, h, nextSlot, bind]

theorem declare_of_mem {top : Scope} {name : String} (h : bareName name ∈ top.bindings)
    (rest : List Scope) (kind : SlotKind) (span : Span) :
    declare ⟨top :: rest⟩ name kind span =
      .error ⟨.duplicateDeclaration (bareName name), span⟩ := by
  simp [declare, conflict?, Scope.conflict?, h]

/-- A declaration either binds a new name in the innermost scope or fails. -/
theorem declare_cases (s : ScopeStack) (name : String) (kind : SlotKind) (span : Span) :
    (∃ top rest, s = ⟨top :: rest⟩ ∧ bareName name ∉ top.bindings ∧
      s.declare name kind span = .ok (top.nextSlot kind, ⟨top.bind name kind span :: rest⟩)) ∨
      ∃ e, s.declare name kind span = .error e := by
  obtain ⟨scopes⟩ := s
  cases scopes with
  | nil => exact .inr ⟨_, rfl⟩
  | cons top rest =>
    by_cases hmem : bareName name ∈ top.bindings
    · exact .inr ⟨_, declare_of_mem hmem rest kind span⟩
    · exact .inl ⟨top, rest, rfl, hmem, declare_of_notMem hmem rest kind span⟩

/-- Only opening and closing a scope changes how many are open. -/
theorem depth_perform (s : ScopeStack) (operation : Operation) :
    (s.perform operation).2.depth =
      match operation with
      | .push => s.depth + 1
      | .pop => s.depth - 1
      | .declare .. | .resolve _ => s.depth := by
  cases operation with
  | push | resolve => rfl
  | pop => simp [perform, pop, depth]
  | declare name kind span =>
    rcases declare_cases s name kind span with ⟨top, rest, rfl, -, hok⟩ | ⟨e, herror⟩
    · simp [perform, hok, depth]
    · simp [perform, herror]

/-- One operation keeps scopes and declarations together. -/
theorem holds_perform {s : ScopeStack} {made : List (List Declaration)}
    (h : List.Forall₂ Scope.Holds s.scopes made) (operation : Operation) :
    List.Forall₂ Scope.Holds (s.perform operation).2.scopes
      (note made (operation, (s.perform operation).1)) := by
  cases operation with
  | push => exact .cons Scope.holds_empty h
  | pop =>
    obtain ⟨scopes⟩ := s
    cases h with
    | nil => exact .nil
    | cons _ hrest => exact hrest
  | resolve name => exact h
  | declare name kind span =>
    rcases declare_cases s name kind span with ⟨top, rest, rfl, hfree, hok⟩ | ⟨e, herror⟩
    · simp only [perform, hok]
      cases h with
      | cons htop hrest => exact .cons (htop.bind hfree kind span) hrest
    · simp only [perform, herror]
      exact h

theorem holds_run {s : ScopeStack} {made : List (List Declaration)}
    (h : List.Forall₂ Scope.Holds s.scopes made) (operations : List Operation) :
    List.Forall₂ Scope.Holds (s.run operations).scopes ((s.trace operations).foldl note made) := by
  induction operations generalizing s made with
  | nil => exact h
  | cons operation rest ih => exact ih (holds_perform h operation)

/-- One operation that does not close a scope leaves those around it alone, and its names where they
are. -/
theorem perform_inside {s : ScopeStack} {upper base : List Scope} {top : Scope}
    (hs : s.scopes = upper ++ top :: base) {operation : Operation}
    (hdepth : base.length < (s.perform operation).2.depth) :
    ∃ upper' top', (s.perform operation).2.scopes = upper' ++ top' :: base ∧ top.Extends top' := by
  cases operation with
  | push => exact ⟨{} :: upper, top, by simp [perform, push, hs], .refl top⟩
  | resolve name => exact ⟨upper, top, hs, .refl top⟩
  | pop =>
    cases upper with
    | nil =>
      simp only [perform, pop, depth, hs, List.nil_append, List.tail_cons] at hdepth
      omega
    | cons u upper => exact ⟨upper, top, congrArg List.tail hs, .refl top⟩
  | declare name kind span =>
    rcases declare_cases s name kind span with ⟨first, rest, rfl, hfree, hok⟩ | ⟨e, herror⟩
    · simp only [perform, hok]
      cases upper with
      | nil =>
        obtain ⟨rfl, rfl⟩ := List.cons.inj hs
        exact ⟨[], first.bind name kind span, rfl, Scope.extends_bind hfree kind span⟩
      | cons u upper =>
        obtain ⟨rfl, rfl⟩ := List.cons.inj hs
        exact ⟨first.bind name kind span :: upper, top, rfl, .refl top⟩
    · simp only [perform, herror]
      exact ⟨upper, top, hs, .refl top⟩

/-- None of the operations closes a scope that is open now. -/
def StaysInside (s : ScopeStack) (operations : List Operation) : Prop :=
  ∀ before, before <+: operations → s.depth ≤ (s.run before).depth

theorem run_inside {s : ScopeStack} {upper base : List Scope} {top : Scope}
    (hs : s.scopes = upper ++ top :: base) {operations : List Operation}
    (hdepth : ∀ before, before <+: operations → base.length < (s.run before).depth) :
    ∃ upper' top', (s.run operations).scopes = upper' ++ top' :: base ∧ top.Extends top' := by
  induction operations generalizing s upper top with
  | nil => exact ⟨upper, top, hs, .refl top⟩
  | cons operation rest ih =>
    -- a prefix of the rest, run from here, is one of all that starts with this operation
    obtain ⟨upper₁, top₁, hs₁, hextends₁⟩ :=
      perform_inside hs (hdepth [operation] (List.prefix_iff_eq_take.2 rfl))
    obtain ⟨upper', top', hs', hextends'⟩ := ih hs₁ fun before hbefore =>
      hdepth (operation :: before) (List.cons_prefix_cons.2 ⟨rfl, hbefore⟩)
    exact ⟨upper', top', hs', hextends₁.trans hextends'⟩

/-- Back in a scope that was never left, it is as it was, with more names perhaps, and so is the
stack around it. -/
theorem run_back {top : Scope} {rest : List Scope} {operations : List Operation}
    (hinside : StaysInside ⟨top :: rest⟩ operations)
    (hback : (run ⟨top :: rest⟩ operations).depth = rest.length + 1) :
    ∃ top', run ⟨top :: rest⟩ operations = ⟨top' :: rest⟩ ∧ top.Extends top' := by
  obtain ⟨upper, top', hs, hextends⟩ := run_inside (List.nil_append (top :: rest)).symm hinside
  rw [depth, hs, List.length_append, List.length_cons] at hback
  obtain rfl : upper = [] := List.length_eq_zero_iff.1 (by omega)
  exact ⟨top', congrArg ScopeStack.mk hs, hextends⟩

/-- What names stand for, given the declarations in the innermost scope. -/
structure Resolves (s : ScopeStack) (innermost : List Declaration) : Prop where
  bound_iff (name : String) (kind : SlotKind) (slot : UInt16) :
    s.resolve name = kind.resolution slot ↔
      ∃ d ∈ innermost, d.name = bareName name ∧ d.binding.kind = kind ∧ d.binding.slot = slot
  unbound_iff (name : String) :
    s.resolve name = .unresolved ↔ ∀ d ∈ innermost, d.name ≠ bareName name

theorem resolves_of_holds {s : ScopeStack} {made : List (List Declaration)}
    (h : List.Forall₂ Scope.Holds s.scopes made) : s.Resolves (made.headD []) := by
  obtain ⟨scopes⟩ := s
  cases h with
  | nil =>
    constructor
    · intro name kind slot
      simp [resolve, (kind.resolution_ne_unresolved slot).symm]
    · intro name
      simp [resolve]
  | @cons top innermost rest outer htop _ =>
    constructor
    · intro name kind slot
      refine (top.resolve_eq_resolution_iff name kind slot).trans ⟨?_, ?_⟩
      · rintro ⟨b, hb, hkind, hslot⟩
        exact ⟨⟨bareName name, b⟩, (htop.bound_iff _ b).1 hb, rfl, hkind, hslot⟩
      · rintro ⟨d, hd, hname, hkind, hslot⟩
        refine ⟨d.binding, ?_, hkind, hslot⟩
        rw [← hname]
        exact (htop.bound_iff d.name d.binding).2 hd
    · intro name
      exact (top.resolve_eq_unresolved_iff name).trans (htop.notMem_iff _)

/-- A declaration succeeds where a scope is open in which the name has not been declared. -/
theorem declare_ok_iff {s : ScopeStack} {made : List (List Declaration)}
    (h : List.Forall₂ Scope.Holds s.scopes made) (name : String) (kind : SlotKind) (span : Span) :
    (∃ slot s', s.declare name kind span = .ok (slot, s')) ↔
      ∃ innermost rest, made = innermost :: rest ∧ ∀ d ∈ innermost, d.name ≠ bareName name := by
  obtain ⟨scopes⟩ := s
  cases h with
  | nil => simp [declare, conflict?]
  | @cons top innermost rest outer htop _ =>
    have hfree : (∃ slot s', declare ⟨top :: rest⟩ name kind span = .ok (slot, s')) ↔
        bareName name ∉ top.bindings := by
      by_cases hmem : bareName name ∈ top.bindings
      · simp [declare_of_mem hmem, hmem]
      · simp [declare_of_notMem hmem, hmem]
    rw [hfree, htop.notMem_iff]
    constructor
    · intro hnew
      exact ⟨innermost, outer, rfl, hnew⟩
    · rintro ⟨_, _, heq, hnew⟩
      cases heq
      exact hnew

theorem resolve_after_declare {s s' : ScopeStack} {name : String} {kind : SlotKind} {span : Span}
    {slot : UInt16} (h : s.declare name kind span = .ok (slot, s')) {operations : List Operation}
    (hinside : s'.StaysInside operations) (hback : (s'.run operations).depth = s'.depth)
    {other : String} (hother : bareName other = bareName name) :
    (s'.run operations).resolve other = kind.resolution slot := by
  rcases declare_cases s name kind span with ⟨top, rest, rfl, hfree, hok⟩ | ⟨e, herror⟩
  · rw [hok] at h
    cases h
    obtain ⟨top', hrun, hextends⟩ := run_back hinside hback
    rw [hrun]
    refine (top'.resolve_eq_resolution_iff other kind _).2 ⟨⟨kind, top.nextSlot kind, span⟩, ?_⟩
    rw [hother]
    exact ⟨hextends _ _ (by simp [Scope.bind]), rfl, rfl⟩
  · rw [herror] at h
    cases h

/-- The scope that was opened is closed again, and with it all that was done inside. -/
theorem pop_run_push {s : ScopeStack} {operations : List Operation}
    (hinside : s.push.StaysInside operations)
    (hback : (s.push.run operations).depth = s.push.depth) : (s.push.run operations).pop = s := by
  obtain ⟨top', hrun, -⟩ := run_back hinside hback
  change (run ⟨{} :: s.scopes⟩ operations).pop = s
  rw [hrun]
  rfl

end ScopeStack

/-- The compiler declares names in its stack of scopes. -/
theorem Compile.declare_eq (kind : SlotKind) (ident : Ident) (s : State) :
    declare kind ident s =
      match s.scopes.declare ident.name kind ident.span with
      | .ok (_, scopes) => .ok () { s with scopes }
      | .error e => .error e s := by
  rw [declare, ScopeStack.declare]
  cases s.scopes.conflict? ident.name ident.span <;> rfl

theorem Compile.declare_error {kind : SlotKind} {ident : Ident} {s s' : State} {e : CompileError}
    (h : declare kind ident s = .error e s') :
    s.scopes.declare ident.name kind ident.span = .error e ∧ s' = s := by
  rw [declare_eq] at h
  split at h
  · cases h
  · rename_i hrefused
    cases h
    exact ⟨hrefused, rfl⟩

namespace ScopeStack

/-- After any operations, every open scope holds the declarations that succeeded in it, in their
order, and names stand for what the innermost of them gives. A declaration succeeds where its name
is new, and the name then keeps its slot whenever that scope is the innermost; one that is refused
changes nothing. Closing a scope gives back the stack from before it was opened. -/
theorem run_holds_declared (operations : List Operation) :
    List.Forall₂ Scope.Holds (run {} operations).scopes (declared (trace {} operations)) ∧
    (run {} operations).Resolves ((declared (trace {} operations)).headD []) ∧
    (∀ name kind span, (∃ slot s, (run {} operations).declare name kind span = .ok (slot, s)) ↔
      ∃ innermost rest, declared (trace {} operations) = innermost :: rest ∧
        ∀ d ∈ innermost, d.name ≠ bareName name) ∧
    (∀ name kind span slot s, (run {} operations).declare name kind span = .ok (slot, s) →
      ∀ more, s.StaysInside more → (s.run more).depth = s.depth →
        ∀ other, bareName other = bareName name →
          (s.run more).resolve other = kind.resolution slot) ∧
    (∀ kind ident e (state state' : State), state.scopes = run {} operations →
      Compile.declare kind ident state = .error e state' →
        (run {} operations).declare ident.name kind ident.span = .error e ∧ state' = state) ∧
    ∀ more, (run {} operations).push.StaysInside more →
      ((run {} operations).push.run more).depth = (run {} operations).push.depth →
        ((run {} operations).push.run more).pop = run {} operations := by
  have hholds : List.Forall₂ Scope.Holds (run {} operations).scopes
      (declared (trace {} operations)) := holds_run (s := {}) .nil operations
  refine ⟨hholds, resolves_of_holds hholds, declare_ok_iff hholds, ?_, ?_, ?_⟩
  · intro name kind span slot s hdeclare more hinside hback other hother
    exact resolve_after_declare hdeclare hinside hback hother
  · intro kind ident e state state' hscopes hdeclare
    rw [← hscopes]
    exact Compile.declare_error hdeclare
  · intro more hinside hback
    exact pop_run_push hinside hback

/-- A name that is declared again, in a scope inside and in its own. -/
theorem holds_declared_of_shadowing :
    let inside : List Operation := [.push, .declare ":x" .argument {}, .pop]
    ∃ s, (run {} [.push]).declare "x" .temporary {} = .ok (0, s) ∧
      s.StaysInside inside ∧ (s.run inside).depth = s.depth ∧
      (s.run inside).resolve ":x" = .temporary 0 ∧
      s.push.StaysInside inside ∧ (s.push.run inside).depth = s.push.depth ∧
      (s.push.run inside).pop = s ∧
      (∃ top made, s.scopes = [top] ∧ top.Holds made ∧ slotsOf .temporary made = [0] ∧
        [0] = List.range top.temporaries) ∧
      ∃ e state, Compile.declare .argument ⟨":x", {}⟩ { (default : State) with scopes := s } =
          .error e state ∧ state = { (default : State) with scopes := s } := by
  intro inside
  have hdepth (s : ScopeStack) : (s.run inside).depth = s.depth := by
    simp [inside, run, depth_perform]
  have hinside (s : ScopeStack) : s.StaysInside inside := by
    intro before hbefore
    simp only [inside, List.prefix_cons_iff, List.prefix_nil] at hbefore
    rcases hbefore with rfl | ⟨_, rfl, rfl | ⟨_, rfl, rfl | ⟨_, rfl, rfl⟩⟩⟩ <;>
      simp [run, depth_perform]
  obtain ⟨top, htop⟩ : ∃ top, top = Scope.bind {} "x" .temporary {} := ⟨_, rfl⟩
  have hdeclare : (run {} [.push]).declare "x" .temporary {} = .ok (0, ⟨[top]⟩) := by
    rw [htop]
    exact declare_of_notMem (by simp) [] .temporary {}
  have hperform : (push {}).perform (.declare "x" .temporary {}) = (.slot 0, ⟨[top]⟩) := by
    rw [perform]
    exact hdeclare ▸ rfl
  have hrun : run {} [.push, .declare "x" .temporary {}] = ⟨[top]⟩ := congrArg Prod.snd hperform
  have hmade : declared (trace {} [.push, .declare "x" .temporary {}]) =
      [[⟨bareName "x", ⟨.temporary, 0, {}⟩⟩]] := by
    change declared [(_, _), (_, ((push {}).perform (.declare "x" .temporary {})).1)] = _
    rw [hperform]
    rfl
  have hbound : bareName ":x" ∈ top.bindings := by
    have hname : bareName "x" = bareName ":x" := by decide
    simp [htop, Scope.bind, hname]
  have hcompile : Compile.declare .argument ⟨":x", {}⟩
      { (default : State) with scopes := ⟨[top]⟩ } =
      .error ⟨.duplicateDeclaration (bareName ":x"), {}⟩
        { (default : State) with scopes := ⟨[top]⟩ } := by
    rw [Compile.declare_eq]
    simp only [declare_of_mem hbound]
  obtain ⟨-, -, -, hkeeps, -, -⟩ := run_holds_declared [.push]
  obtain ⟨hholds, -, -, -, hrefused, hpop⟩ :=
    run_holds_declared [.push, .declare "x" .temporary {}]
  rw [hrun] at hholds hrefused hpop
  rw [hmade] at hholds
  have htops := (List.forall₂_cons.1 hholds).1
  refine ⟨⟨[top]⟩, hdeclare, hinside _, hdepth _, ?_, hinside _, hdepth _, ?_,
    ⟨top, _, rfl, htops, rfl, htops.temporaries_eq (by decide)⟩, _, _, hcompile, ?_⟩
  · exact hkeeps "x" .temporary {} 0 _ hdeclare inside (hinside _) (hdepth _) ":x" (by decide)
  · exact hpop inside (hinside _) (hdepth _)
  · exact (hrefused .argument ⟨":x", {}⟩ _ _ _ rfl hcompile).2

end ScopeStack
end SmalltalkJvm
