import SmalltalkJvm.Compile.State

/-! # Calls into the support library

Generated code does all its work through the support library: it asks the receiver, in local
variable 1, for literals, globals and blocks and sends messages through it, and asks the context,
in local variable 2, for temporaries and arguments.
-/

namespace SmalltalkJvm.Compile

variable (env : Env)

def invokeObject (name descriptor : String) : Compile Unit :=
  emit (.invoke .invokevirtual ⟨env.library.object, name, descriptor⟩)

def invokeContext (name descriptor : String) : Compile Unit :=
  emit (.invoke .invokevirtual ⟨env.library.context, name, descriptor⟩)

def pushReceiver : Compile Unit := emit (.load 1)

def pushContext : Compile Unit := emit (.load 2)

/-- One of the fixed objects, by the name of the method that gives it. -/
def pushFixed (accessor : String) : Compile Unit := do
  pushReceiver
  invokeObject env accessor s!"(){env.library.objectType}"

def pushNil : Compile Unit := pushFixed env "referenceNil"

def pushGlobal (name : String) : Compile Unit := do
  pushReceiver
  emit (.string name)
  invokeObject env "reference" s!"(Ljava/lang/String;){env.library.objectType}"

def literalFactory : LiteralKind → String
  | .number => "smalltalkNumber"
  | .character => "smalltalkCharacter"
  | .string => "smalltalkString"
  | .symbol => "smalltalkSymbol"
  | .array => "smalltalkArray"

def pushLiteral (kind : LiteralKind) (text : String) : Compile Unit := do
  pushReceiver
  emit (.string text)
  invokeObject env (literalFactory kind) s!"(Ljava/lang/Object;){env.library.objectType}"

def pushSlot (slot : UInt16) : Compile Unit := emit (.int (Int32.ofNat slot))

def pushTemporary (slot : UInt16) : Compile Unit := do
  pushContext
  pushSlot slot
  invokeContext env "temporaryAt" s!"(I){env.library.objectType}"

def pushArgument (slot : UInt16) : Compile Unit := do
  pushContext
  pushSlot slot
  invokeContext env "argumentAt" s!"(I){env.library.objectType}"

/-- Stores the top value in a temporary. -/
def storeTemporary (slot : UInt16) : Compile Unit := do
  pushSlot slot
  pushContext
  emit (.invoke .invokestatic
    ⟨env.library.context, "temporaryPutAt",
      s!"({env.library.objectType}I{env.library.contextType})V"⟩)

def initTemporaries (count : UInt16) : Compile Unit := do
  pushContext
  pushSlot count
  invokeContext env "initTemporaries" "(I)V"

/-- The standard bootstrap method that makes an object of one method. -/
def metafactory : MethodHandle where
  kind := .invokeStatic
  target :=
    { owner := "java/lang/invoke/LambdaMetafactory"
      name := "metafactory"
      descriptor :=
        "(Ljava/lang/invoke/MethodHandles$Lookup;Ljava/lang/String;" ++
        "Ljava/lang/invoke/MethodType;Ljava/lang/invoke/MethodType;" ++
        "Ljava/lang/invoke/MethodHandle;Ljava/lang/invoke/MethodType;)" ++
        "Ljava/lang/invoke/CallSite;" }

/-- The call site that makes an object of a block's method. -/
def blockSite (method : String) : CallSite where
  name := "apply"
  descriptor := s!"()L{env.library.lambdaBlock};"
  bootstrap := metafactory
  arguments :=
    [.methodType env.library.blockDescriptor,
      .handle ⟨.invokeStatic, ⟨env.unit.internal, method, env.library.blockDescriptor⟩⟩,
      .methodType env.library.blockDescriptor]

/-- How the receiver of a message was written. -/
inductive Receiver where
  /-- A value on the stack. -/
  | value
  /-- The receiver of the script, with lookup starting above its class. -/
  | super
  /-- The escape identifier, which leaves nothing on the stack. -/
  | escape
  deriving DecidableEq, Repr, Inhabited

def checkArity (selector : String) (arity : Nat) (span : Span) : Compile Unit :=
  if maxArity < arity then throw ⟨.unsupportedArity selector arity maxArity, span⟩ else pure ()

/-- Sends a message whose receiver and arguments are on the stack. -/
def dispatch (selector : String) (arity : Nat) (receiver : Receiver) (span : Span) :
    Compile Unit := do
  checkArity selector arity span
  openLine span
  emit (.string selector)
  invokeObject env (if receiver = .super then "superPerform" else "perform")
    (env.library.sendDescriptor arity)

end SmalltalkJvm.Compile
