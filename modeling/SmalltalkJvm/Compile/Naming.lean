import SmalltalkJvm.Jvm.ClassName
import SmalltalkJvm.Source.Span
import Std.Data.HashSet

/-! # Names of units and blocks

A unit is the class that a script becomes. Each block of the script becomes a method of it, and
each block that answers from the method that created it also gets a marker class, named after the
block's method.

A block among the arguments of a keyword message whose first argument is a symbol takes the symbol
for its name, if that is a legal method name and free. All other blocks are numbered.
-/

namespace SmalltalkJvm

structure UnitName where
  package : String
  className : String
  deriving DecidableEq, Repr, Inhabited

namespace UnitName

/-- The full name with dots; the empty package adds nothing to it. -/
def binary (u : UnitName) : String :=
  if u.package = "" then u.className else s!"{u.package}.{u.className}"

def internal (u : UnitName) : String := slashed u.binary

/-- The marker class for the block whose method has the name given. -/
def marker (u : UnitName) (block : String) : String := s!"{u.binary}$A{block}"

def sourceFile (u : UnitName) (extension : String) : String := u.className ++ extension

end UnitName

/-- A keyword message whose arguments are being compiled. -/
structure PendingSend where
  /-- The keywords so far, run together. -/
  selector : String := ""
  /-- The symbol that is its first argument. -/
  symbol : Option String := none
  span : Span
  deriving DecidableEq, Repr, Inhabited

namespace PendingSend

def addKeyword (p : PendingSend) (keyword : String) : PendingSend :=
  { p with selector := p.selector ++ keyword }

def setSymbol (p : PendingSend) (text : String) : PendingSend := { p with symbol := some text }

end PendingSend

namespace BlockName

/-- Characters that a method name in a class file cannot have. -/
def forbidden : List Char := ['.', ';', '[', '/', '<', '>']

def isLegal (name : String) : Bool := name != "" && name.toList.all fun c => !forbidden.contains c

/-- The method name that a symbol stands for, without the hash signs in front. -/
def ofSymbol? (symbol : String) : Option String :=
  let name := String.ofList (symbol.toList.dropWhile (· == '#'))
  if isLegal name then some name else none

def numbered (n : Nat) : String := s!"B{n}"

/-- Names that the unit's other methods have. -/
def reserved : List String := ["<init>", "packageName", "importFor", "sendMessages"]

/-- The first number from `n` on whose name is free, among the next `tries`. -/
def firstFree (taken : Std.HashSet String) : (tries n : Nat) → Nat
  | 0, n => n
  | tries + 1, n => if numbered n ∈ taken then firstFree taken tries (n + 1) else n

/-- A free name for a block and the number from which to look for the next. As many tries as names
are taken are enough, since the numbered names differ. -/
def choose (taken : Std.HashSet String) (next : Nat) (symbol : Option String) : String × Nat :=
  match symbol.bind ofSymbol? with
  | some name =>
    if name ∈ taken then number else (name, next)
  | none => number
where
  number : String × Nat :=
    let n := firstFree taken taken.size next
    (numbered n, n + 1)

end BlockName
end SmalltalkJvm
