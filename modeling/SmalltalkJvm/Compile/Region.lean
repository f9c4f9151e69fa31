import SmalltalkJvm.Compile.SupportCall

/-! # Answers from blocks

A block may answer from the method that created it, even when that method runs it indirectly. The
support library then throws an exception of the block's marker class, which carries the answer. So
every statement and every keyword message opens a region; if blocks with markers are created in it,
closing it adds an exception entry and a handler for each of them, which returns the answer.
-/

namespace SmalltalkJvm.Compile

variable (env : Env)

def openRegion (span : Span) : Compile Unit := do
  let start ← newLabel
  emit (.mark start)
  modify fun s =>
    { s with current := { s.current with regions := { start, span } :: s.current.regions } }

/-- Takes the innermost region off the stack of open ones. -/
def popRegion : Compile Region := fun s =>
  match s.current.regions with
  | [] => .error (.internal .noOpenRegion {}) s
  | region :: rest => .ok region { s with current := { s.current with regions := rest } }

/-- Returns the answer that a marker carries. -/
def emitHandler (span : Span) (handler : Label) (marker : String) : Compile Unit := do
  emit (.markHandler handler marker)
  openLine span
  emit (.invoke .invokevirtual ⟨marker, "answer", s!"(){env.library.objectType}"⟩)
  emit (.plain .areturn)

def emitHandlers (region : Region) : Compile Unit := do
  let stop ← newLabel
  let after ← newLabel
  emit (.mark stop)
  let handlers ← region.markers.toList.mapM fun marker => return ((← newLabel), marker)
  for (handler, marker) in handlers do
    emit (.protect ⟨region.start, stop, handler, some marker⟩)
  emit (.goto after)
  for (handler, marker) in handlers do
    emitHandler env region.span handler marker
  emit (.mark after)

/-- Closes the innermost region. -/
def closeRegion : Compile Unit := do
  let region ← popRegion
  if region.markers.isEmpty then pure () else emitHandlers env region

/-- Has the innermost region return the answers of a block. -/
def attachMarker (marker : String) (span : Span) : Compile Unit := fun s =>
  match s.current.regions with
  | [] => .error (.internal .answerOutsideStatement span) s
  | region :: rest =>
    let region := { region with markers := region.markers.push marker }
    .ok () { s with current := { s.current with regions := region :: rest } }

/-- The constructor of a marker class hands its argument on. -/
def markerConstructor (name : String) : Draft :=
  (Draft.constructor name [.object env.library.object]).run
    [.load 0, .load 1,
      .invoke .invokespecial ⟨env.library.blockAnswer, "<init>", s!"({env.library.objectType})V"⟩,
      .plain .returnVoid]

/-- The marker class of a name. -/
def markerClass (name : String) (span : Span) : Except CompileError ClassFile :=
  match (markerConstructor env name).finish with
  | .error fault => .error (.ofDraft fault span)
  | .ok body =>
    .ok
      { name
        superName := env.library.blockAnswer
        sourceFile := some (env.unit.sourceFile env.settings.sourceExtension)
        methods := [⟨Access.isPublic, "<init>", s!"({env.library.objectType})V", body⟩] }

/-- Makes the marker class for a block's method and gives its name. -/
def addMarker (block : String) (span : Span) : Compile String := do
  let name := slashed (env.unit.marker block)
  let marker ← ofExcept (markerClass env name span)
  modify fun s => { s with markers := s.markers.push marker }
  return name

end SmalltalkJvm.Compile
