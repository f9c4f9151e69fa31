/-! # Compiler settings

What is fixed for all scripts of a compiler: the classes of the support library that generated code
calls, the identifier that opens escape directives, the keyword that makes its block a method, and
whether source lines are recorded.
-/

namespace SmalltalkJvm

/-- Classes that generated code relies on, with slashes between packages. -/
structure SupportLibrary where
  object : String := "st/core/PrimObject"
  context : String := "st/core/PrimContext"
  blockAnswer : String := "st/core/PrimBlockAnswer"
  lambdaBlock : String := "st/core/LambdaBlock"
  classLoader : String := "st/classloader/SmalltalkClassLoader"
  deriving DecidableEq, Repr, Inhabited

namespace SupportLibrary

def objectType (l : SupportLibrary) : String := s!"L{l.object};"

def contextType (l : SupportLibrary) : String := s!"L{l.context};"

/-- The method of a block takes its receiver, the receiver of the script and a context. -/
def blockDescriptor (l : SupportLibrary) : String :=
  s!"({l.objectType}{l.objectType}{l.contextType}){l.objectType}"

/-- Sending takes the arguments, then the selector. -/
def sendDescriptor (l : SupportLibrary) (arity : Nat) : String :=
  s!"({String.join (List.replicate arity l.objectType)}Ljava/lang/String;){l.objectType}"

/-- The script's own method takes its receiver and a context. -/
def scriptDescriptor (l : SupportLibrary) : String :=
  s!"({l.objectType}{l.contextType}){l.objectType}"

end SupportLibrary

structure Settings where
  /-- Classes in this package import by the rules of the support library. -/
  defaultPackage : String := "st.kernel"
  escapeIdentifier : String := "JVM"
  methodKeyword : String := "withMethod:"
  sourceExtension : String := ".st"
  lineNumbers : Bool := true
  library : SupportLibrary := {}
  deriving DecidableEq, Repr, Inhabited

/-- The support library dispatches sends of at most this many arguments. -/
def maxArity : Nat := 5

end SmalltalkJvm
