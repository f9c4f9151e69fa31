import SmalltalkJvm.Compile.Unit
import Std.Data.TreeMap

/-! # Class stores and sessions

A store keeps class files by name, in the order of their names. A name is defined once and for all.
A batch is defined as a whole or not at all; it is refused for the first of its names that the
store has, or that stands in the batch before.

A session compiles scripts with fixed settings and defines their classes as one batch.
-/

namespace SmalltalkJvm

structure ClassStore where
  classes : Std.TreeMap String (List UInt8) := ∅
  deriving Inhabited

namespace ClassStore

def get? (s : ClassStore) (name : String) : Option (List UInt8) := s.classes[name]?

def contains (s : ClassStore) (name : String) : Bool := s.classes.contains name

def size (s : ClassStore) : Nat := s.classes.size

def isEmpty (s : ClassStore) : Bool := s.classes.isEmpty

def names (s : ClassStore) : List String := s.classes.keys

def insert (s : ClassStore) (c : CompiledClass) : ClassStore := ⟨s.classes.insert c.name c.bytes⟩

/-- Defines a class unless its name is in use, and tells whether it did. -/
def define (s : ClassStore) (c : CompiledClass) : Bool × ClassStore :=
  if s.contains c.name then (false, s) else (true, s.insert c)

/-- Defines what can be of some classes, one after the other, and counts them. -/
def defineEach (s : ClassStore) (classes : List CompiledClass) : Nat × ClassStore :=
  classes.foldl
    (fun (count, s) c =>
      match s.define c with
      | (true, s) => (count + 1, s)
      | (false, s) => (count, s))
    (0, s)

/-- The first name of a batch that is in use, in the store or earlier in the batch. -/
def refused? (s : ClassStore) (batch : List CompiledClass) : Option String := go ∅ batch
where
  go (seen : Std.HashSet String) : List CompiledClass → Option String
    | [] => none
    | c :: rest =>
      if s.contains c.name || seen.contains c.name then some c.name
      else go (seen.insert c.name) rest

/-- Defines a batch and gives its size, or the name it is refused for. -/
def defineAll (s : ClassStore) (batch : List CompiledClass) : Except String (Nat × ClassStore) :=
  match s.refused? batch with
  | some name => .error name
  | none => .ok (batch.length, batch.foldl insert s)

end ClassStore

inductive SessionError where
  | compile (error : CompileError)
  | alreadyDefined (name : String)
  deriving DecidableEq, Repr, Inhabited

def SessionError.message : SessionError → String
  | compile error => error.message
  | alreadyDefined name => s!"class '{name}' is already defined"

/-- Compiles a script and defines its classes. -/
def ClassStore.compile (s : ClassStore) (settings : Settings) (unit : UnitName) (script : Script) :
    Except SessionError (CompiledUnit × ClassStore) :=
  match compileUnit settings unit script with
  | .error e => .error (.compile e)
  | .ok compiled =>
    match s.defineAll compiled.classes with
    | .error name => .error (.alreadyDefined name)
    | .ok (_, s) => .ok (compiled, s)

end SmalltalkJvm
