import SmalltalkJvm.Compile.Body

/-! # Compiled units

The primary class of a unit holds its constructor, the method that tells its package, one that
resolves imports unless the package is the default one, the script's own method, and the methods of
its blocks. The marker classes of its blocks stand beside it.
-/

namespace SmalltalkJvm

/-- A class with its class file. -/
structure CompiledClass where
  file : ClassFile
  bytes : List UInt8
  deriving DecidableEq, Repr, Inhabited

namespace CompiledClass

def name (c : CompiledClass) : String := c.file.binaryName

def assemble (file : ClassFile) : Except CompileError CompiledClass :=
  match file.bytes with
  | .ok bytes => .ok ⟨file, bytes⟩
  | .error fault => .error (.ofAssembly fault)

end CompiledClass

structure CompiledUnit where
  primary : CompiledClass
  markers : List CompiledClass
  deriving DecidableEq, Repr, Inhabited

/-- The classes in the order they have to be defined: markers before the class that uses them. -/
def CompiledUnit.classes (u : CompiledUnit) : List CompiledClass := u.markers ++ [u.primary]

namespace Compile

variable (env : Env)

/-- A method that no script text stands for. -/
def fixedMethod (access : UInt16) (name descriptor : String) (draft : Draft) :
    Except CompileError Method :=
  match draft.finish with
  | .ok body => .ok ⟨access, name, descriptor, body⟩
  | .error fault => .error (.ofDraft fault {})

/-- Imports the package, makes a context, and runs the script on the new object. -/
def constructorSteps : List Draft.Step :=
  let l := env.library
  let this := env.unit.internal
  [.line 0,
    .load 0,
    .invoke .invokespecial ⟨l.object, "<init>", "()V"⟩,
    .load 0,
    .load 0,
    .invoke .invokevirtual ⟨l.object, "packageName", "()Ljava/lang/String;"⟩,
    .invoke .invokevirtual ⟨l.object, "importAll", "(Ljava/lang/String;)V"⟩,
    .create l.context,
    .plain .dup,
    .load 0,
    .invoke .invokespecial ⟨l.context, "<init>", s!"({l.objectType})V"⟩,
    .store 1,
    .load 0,
    .load 0,
    .invoke .invokevirtual ⟨this, "selfClass", s!"({l.objectType})V"⟩,
    .load 0,
    .load 0,
    .load 1,
    .invoke .invokevirtual ⟨this, "sendMessages", l.scriptDescriptor⟩,
    .plain .pop,
    .plain .returnVoid]

def constructor : Except CompileError Method :=
  fixedMethod Access.isPublic "<init>" "()V"
    ((Draft.constructor env.unit.internal [] env.settings.lineNumbers).run (constructorSteps env))

def packageNameMethod : Except CompileError Method :=
  fixedMethod Access.isProtected "packageName" "()Ljava/lang/String;"
    ((env.method [.object env.unit.internal]).run
      [.string env.unit.package, .plain .areturn])

/-- Asks the class loader for a name as this package imports it. -/
def importForMethod : Except CompileError Method :=
  let l := env.library
  fixedMethod Access.isProtected "importFor" "(Ljava/lang/String;)Ljava/lang/String;"
    ((env.method [.object l.object, .object "java/lang/String"]).run
      [.load 0,
        .invoke .invokevirtual ⟨l.object, "classLoader", s!"()L{l.classLoader};"⟩,
        .load 1,
        .load 0,
        .invoke .invokevirtual ⟨l.object, "packageName", "()Ljava/lang/String;"⟩,
        .invoke .invokevirtual
          ⟨l.classLoader, "importForBy",
            "(Ljava/lang/String;Ljava/lang/String;)Ljava/lang/String;"⟩,
        .plain .areturn])

/-- The methods before the script's own. -/
def fixedMethods : Except CompileError (List Method) := do
  let construct ← constructor env
  let packageName ← packageNameMethod env
  if env.unit.package = env.settings.defaultPackage then return [construct, packageName]
  let importFor ← importForMethod env
  return [construct, packageName, importFor]

def primaryClass (generated : Generated) : Except CompileError ClassFile := do
  let fixed ← fixedMethods env
  return {
    name := env.unit.internal
    superName := env.library.object
    sourceFile := some (env.unit.sourceFile env.settings.sourceExtension)
    methods := fixed ++ generated.sendMessages :: generated.blocks
    innerClasses := [InnerClass.lookup] }

end Compile

/-- Compiles a script to the classes of its unit. -/
def compileUnit (settings : Settings) (unit : UnitName) (script : Script) :
    Except CompileError CompiledUnit := do
  let env : Env := ⟨settings, unit⟩
  let generated ← Compile.generate env script
  let file ← Compile.primaryClass env generated
  let primary ← CompiledClass.assemble file
  let markers ← generated.markers.mapM CompiledClass.assemble
  return ⟨primary, markers⟩

end SmalltalkJvm
