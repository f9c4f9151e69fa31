import SmalltalkJvm.Compile.CompileError
import Std.Data.HashMap

/-! # Scopes

Each method under construction has a scope: the script's at the bottom of the stack, then one for
each nested block. Temporaries and arguments live in separate stores of the method's context, so
each kind is numbered from 0 on its own. Slots and counters have 16 bits and wrap.

Only the innermost scope is looked at. A name that is not bound there is a global, found by name
when the script runs, even if an enclosing block declares it.
-/

namespace SmalltalkJvm

/-- A name without the colon that may stand before a parameter. -/
def bareName (name : String) : String :=
  match name.toList with
  | ':' :: rest => String.ofList rest
  | _ => name

/-- A slot or a count of 16 bits stands for its number. -/
instance slotNumber : Coe UInt16 Nat := ⟨UInt16.toNat⟩

inductive SlotKind where
  | temporary | argument
  deriving DecidableEq, Repr, Inhabited

structure Binding where
  kind : SlotKind
  slot : UInt16
  span : Span
  deriving DecidableEq, Repr, Inhabited

inductive Resolution where
  | temporary (slot : UInt16)
  | argument (slot : UInt16)
  | unresolved
  deriving DecidableEq, Repr, Inhabited

structure Scope where
  bindings : Std.HashMap String Binding := ∅
  temporaries : UInt16 := 0
  arguments : UInt16 := 0
  deriving Inhabited

namespace Scope

def binding? (s : Scope) (name : String) : Option Binding := s.bindings[bareName name]?

/-- The slot that the next name of a kind gets. -/
def nextSlot (s : Scope) : SlotKind → UInt16
  | .temporary => s.temporaries
  | .argument => s.arguments

def bind (s : Scope) (name : String) (kind : SlotKind) (span : Span) : Scope :=
  let slot := s.nextSlot kind
  { bindings := s.bindings.insert (bareName name) ⟨kind, slot, span⟩
    temporaries := if kind = .temporary then s.temporaries + 1 else s.temporaries
    arguments := if kind = .argument then s.arguments + 1 else s.arguments }

/-- Why a name cannot be bound: it has one binding at most, of either kind. -/
def conflict? (s : Scope) (name : String) (span : Span) : Option CompileError :=
  if bareName name ∈ s.bindings then some ⟨.duplicateDeclaration (bareName name), span⟩ else none

def resolve (s : Scope) (name : String) : Resolution :=
  match s.binding? name with
  | some ⟨.temporary, slot, _⟩ => .temporary slot
  | some ⟨.argument, slot, _⟩ => .argument slot
  | none => .unresolved

end Scope

/-- Scopes, innermost first. -/
structure ScopeStack where
  scopes : List Scope := []
  deriving Inhabited

namespace ScopeStack

def push (s : ScopeStack) : ScopeStack := ⟨{} :: s.scopes⟩

def pop (s : ScopeStack) : ScopeStack := ⟨s.scopes.tail⟩

def current? (s : ScopeStack) : Option Scope := s.scopes.head?

def depth (s : ScopeStack) : Nat := s.scopes.length

/-- Why a name cannot be bound in the innermost scope. -/
def conflict? (s : ScopeStack) (name : String) (span : Span) : Option CompileError :=
  match s.scopes with
  | [] => some (.internal .declarationOutsideScope span)
  | innermost :: _ => innermost.conflict? name span

def nextSlot (s : ScopeStack) (kind : SlotKind) : UInt16 :=
  match s.scopes with
  | [] => 0
  | innermost :: _ => innermost.nextSlot kind

def bind (s : ScopeStack) (name : String) (kind : SlotKind) (span : Span) : ScopeStack :=
  match s with
  | ⟨[]⟩ => ⟨[]⟩
  | ⟨innermost :: rest⟩ => ⟨innermost.bind name kind span :: rest⟩

/-- Binds a name in the innermost scope and gives its slot. -/
def declare (s : ScopeStack) (name : String) (kind : SlotKind) (span : Span) :
    Except CompileError (UInt16 × ScopeStack) :=
  match s.conflict? name span with
  | some e => .error e
  | none => .ok (s.nextSlot kind, s.bind name kind span)

def resolve (s : ScopeStack) (name : String) : Resolution :=
  match s.scopes with
  | [] => .unresolved
  | innermost :: _ => innermost.resolve name

end ScopeStack
end SmalltalkJvm
