/-! # Class names

A class name separates its packages by dots, except inside a class file, where slashes do.
-/

namespace SmalltalkJvm

/-- The name with slashes for dots. -/
def slashed (name : String) : String := name.map fun c => if c = '.' then '/' else c

/-- The name with dots for slashes. -/
def dotted (name : String) : String := name.map fun c => if c = '/' then '.' else c

end SmalltalkJvm
