import SmalltalkJvm.Proofs.Outcomes
import SmalltalkJvm.Proofs.RoundTrip

/-! # Stack maps that are read back

A reader of stack maps that knows every form of a frame and nothing of how they are chosen. It reads
the map of any method that is written as one frame for each offset that a label with a frame has,
by rising offset, with the variables on entry and the stack of the first such label.
-/

namespace SmalltalkJvm

/-- A frame as it is read. An object under construction is known by the offset of the instruction
that creates it. -/
structure MapFrame where
  offset : Nat
  locals : List VerificationType
  /-- Bottom first. -/
  stack : List VerificationType
  deriving DecidableEq, Repr

namespace Reader

/-- Where a frame is that follows the one at an offset, or none, at a distance. -/
def offsetAfter : Option Nat → Nat → Nat
  | none, distance => distance
  | some before, distance => before + distance + 1

variable (constants : List Constant)

def typePayload : Nat → Reader VerificationType
  | 0 => return .top
  | 1 => return .int
  | 2 => return .float
  | 3 => return .double
  | 4 => return .long
  | 5 => return .null
  | 6 => return .uninitializedThis
  | 7 => do
    let index ← u16
    let name ← Constants.className constants index
    return .object name
  | 8 => return .uninitialized (← u16)
  | tag => throw (.unknownTag tag 0)

def verificationType : Reader VerificationType := do
  let tag ← u8
  typePayload constants tag

/-- A frame that gives its distance in two bytes: one more entry on an empty stack, the last
variables left out, the same variables, some more of them, or all of both. -/
def longFrame (offset : Nat) (locals : List VerificationType) (kind : Nat) : Reader MapFrame :=
  if kind = 247 then do
    let entry ← verificationType constants
    return ⟨offset, locals, [entry]⟩
  else if kind < 251 then
    return ⟨offset, locals.take (locals.length - (251 - kind)), []⟩
  else if kind = 251 then
    return ⟨offset, locals, []⟩
  else if kind < 255 then do
    let more ← times (verificationType constants) (kind - 251)
    return ⟨offset, locals ++ more, []⟩
  else do
    let locals ← counted (verificationType constants)
    let stack ← counted (verificationType constants)
    return ⟨offset, locals, stack⟩

/-- What follows the first byte of a frame. Low ones are distances themselves, and those from 128
to 246 are reserved. -/
def framePayload (before : Option Nat) (locals : List VerificationType) (kind : Nat) :
    Reader MapFrame :=
  if kind < 64 then
    return ⟨offsetAfter before kind, locals, []⟩
  else if kind < 128 then do
    let entry ← verificationType constants
    return ⟨offsetAfter before (kind - 64), locals, [entry]⟩
  else if kind < 247 then throw (.unknownTag kind 0)
  else do
    let distance ← u16
    longFrame constants (offsetAfter before distance) locals kind

def frame (before : Option Nat) (locals : List VerificationType) : Reader MapFrame := do
  let kind ← u8
  framePayload constants before locals kind

def frames (before : Option Nat) (locals : List VerificationType) : Nat → Reader (List MapFrame)
  | 0 => return []
  | n + 1 => do
    let f ← frame constants before locals
    let rest ← frames (some f.offset) f.locals n
    return f :: rest

def stackMap (locals : List VerificationType) : Reader (List MapFrame) := do
  let n ← u16
  frames constants none locals n

variable {constants}

theorem reads_verificationType {tag : UInt8} {bytes : List UInt8} {t : VerificationType}
    (h : (typePayload constants tag.toNat).Reads bytes t) :
    (verificationType constants).Reads (tag :: bytes) t :=
  (reads_u8 tag).bind h

theorem reads_frame {before : Option Nat} {locals : List VerificationType} {kind : UInt8}
    {bytes : List UInt8} {f : MapFrame}
    (h : (framePayload constants before locals kind.toNat).Reads bytes f) :
    (frame constants before locals).Reads (kind :: bytes) f :=
  (reads_u8 kind).bind h

theorem reads_longFrame (before : Option Nat) (locals : List VerificationType) (kind : UInt8)
    {distance : Nat} {bytes : List UInt8} {f : MapFrame} (hkind : 247 ≤ kind.toNat)
    (hdistance : distance < 65536)
    (h : (longFrame constants (offsetAfter before distance) locals kind.toNat).Reads bytes f) :
    (frame constants before locals).Reads (kind :: (Word.bytes2 distance ++ bytes)) f := by
  apply reads_frame
  rw [framePayload, if_neg (by omega), if_neg (by omega), if_neg (by omega)]
  exact (reads_u16 hdistance).bind h

end Reader

def Layout.Fits (layout : Layout) : Prop :=
  ∀ place pc, layout.offsetOf? place = some pc → pc < 65536

theorem Layout.fits_ofList {linked : List Linked} (h : codeSize linked ≤ 65535) :
    (ofList linked).Fits := by
  intro place pc hpc
  rw [offsetOf?_ofList] at hpc
  obtain ⟨k, -, rfl⟩ := Option.map_eq_some_iff.1 hpc
  have hsplit := congrArg codeSize (List.take_append_drop place linked)
  rw [codeSize_append] at hsplit
  omega

namespace VerificationType

/-- A type as it is read: an object under construction has the offset of its creation, or the end of
the code if that is missing. -/
def located (layout : Layout) : VerificationType → VerificationType
  | .uninitialized creation =>
    .uninitialized ((layout.offsetOf? creation).getD layout.size)
  | t => t

def IsCreated (layout : Layout) : VerificationType → Prop
  | .uninitialized creation => (layout.offsetOf? creation).isSome
  | _ => True

end VerificationType

open Link

namespace StackMap

variable {layout : Layout}

theorem leaves_typeBytes (hlayout : layout.Fits) (t : VerificationType) :
    Leaves (typeBytes layout t) fun bytes l =>
      (Reader.verificationType l.pool.table.toList).Reads bytes (t.located layout) ∧
        t.IsCreated layout := by
  cases t with
  | object name =>
    apply ((leaves_classRef name).map fun index => 7 :: Word.bytes2 index).imp
    rintro bytes l ⟨index, hindex, rfl⟩
    refine ⟨Reader.reads_verificationType ?_, trivial⟩
    have hname := Constants.className_eq hindex
    rw [← List.append_nil (Word.bytes2 index)]
    exact (Reader.reads_u16 hindex.lt).bind (.known hname (Reader.reads_pure _))
  | uninitialized creation =>
    rw [typeBytes]
    split
    · rename_i pc hpc
      apply leaves_pure
      intro l
      rw [VerificationType.located, VerificationType.IsCreated, hpc]
      exact ⟨Reader.reads_verificationType ((Reader.reads_u16 (hlayout creation pc hpc)).andReturn
        VerificationType.uninitialized), rfl⟩
    · exact leaves_throw _
  | top | int | float | double | long | null | uninitializedThis =>
    exact leaves_pure fun l => ⟨Reader.reads_verificationType (Reader.reads_pure _), trivial⟩

/-- Types one after the other, each with its bytes. -/
theorem leaves_typesBytes (hlayout : layout.Fits) (types : List VerificationType) :
    Leaves (typesBytes layout types) fun bytes l =>
      (∃ parts, bytes = parts.flatten ∧
        List.Forall₂ (Reader.verificationType l.pool.table.toList).Reads parts
          (types.map (·.located layout))) ∧
        ∀ t ∈ types, t.IsCreated layout := by
  apply ((Leaves.mapM (leaves_typeBytes hlayout) types).map List.flatten).imp
  rintro bytes l ⟨parts, hparts, rfl⟩
  constructor
  · refine ⟨parts, rfl, ?_⟩
    rw [List.forall₂_map_right_iff]
    exact hparts.flip.imp fun _ _ h => h.1
  · intro t ht
    obtain ⟨part, -, h⟩ := exists_of_mem_left hparts ht
    exact h.2

/-- The bytes of a frame at a distance are read as that frame, if its numbers have 16 bits. -/
def IsFrame (layout : Layout) (l : Linker) (locals : List VerificationType) (f : PlacedStack)
    (bytes : List UInt8) : Prop :=
  f.1 < 65536 → locals.length < 65536 → f.2.length < 65536 →
    (∀ before, (Reader.frame l.pool.table.toList before (locals.map (·.located layout))).Reads bytes
      ⟨Reader.offsetAfter before f.1, locals.map (·.located layout),
        f.2.map (·.located layout)⟩) ∧
      ∀ t ∈ f.2, t.IsCreated layout

theorem isFrame_empty (l : Linker) (locals : List VerificationType) (distance : Nat) :
    IsFrame layout l locals (distance, [])
      (if distance < 64 then [distance.toUInt8] else 251 :: Word.bytes2 distance) := by
  intro hdistance _ _
  refine ⟨fun before => ?_, by simp⟩
  by_cases hshort : distance < 64
  · rw [if_pos hshort]
    apply Reader.reads_frame
    rw [UInt8.toNat_ofNat_of_lt' (show _ < 256 by omega), Reader.framePayload, if_pos hshort]
    exact Reader.reads_pure _
  · rw [if_neg hshort, ← List.append_nil (Word.bytes2 distance)]
    exact Reader.reads_longFrame before _ 251 (by decide) hdistance (Reader.reads_pure _)

theorem isFrame_single {l : Linker} {entry : VerificationType} {bytes : List UInt8}
    (locals : List VerificationType) (distance : Nat)
    (hentry : (Reader.verificationType l.pool.table.toList).Reads bytes (entry.located layout))
    (hcreated : entry.IsCreated layout) :
    IsFrame layout l locals (distance, [entry])
      ((if distance < 64 then [(64 + distance).toUInt8] else 247 :: Word.bytes2 distance) ++
        bytes) := by
  intro hdistance _ _
  refine ⟨fun before => ?_, List.forall_mem_singleton.2 hcreated⟩
  by_cases hshort : distance < 64
  · rw [if_pos hshort]
    apply Reader.reads_frame
    rw [UInt8.toNat_ofNat_of_lt' (show _ < 256 by omega), Reader.framePayload, if_neg (by omega),
      if_pos (by omega), Nat.add_sub_cancel_left]
    exact hentry.andReturn fun entry => MapFrame.mk _ _ [entry]
  · rw [if_neg hshort]
    exact Reader.reads_longFrame before _ 247 (by decide) hdistance
      (hentry.andReturn fun entry => MapFrame.mk _ _ [entry])

theorem isFrame_full {l : Linker} {locals stack : List VerificationType}
    {localParts stackParts : List (List UInt8)} (distance : Nat)
    (hlocals : List.Forall₂ (Reader.verificationType l.pool.table.toList).Reads localParts
      (locals.map (·.located layout)))
    (hstack : List.Forall₂ (Reader.verificationType l.pool.table.toList).Reads stackParts
      (stack.map (·.located layout)))
    (hcreated : ∀ t ∈ stack, t.IsCreated layout) :
    IsFrame layout l locals (distance, stack)
      (255 :: Word.bytes2 distance ++ Word.bytes2 locals.length ++ localParts.flatten ++
        Word.bytes2 stack.length ++ stackParts.flatten) := by
  intro hdistance hlocalCount hstackCount
  refine ⟨fun before => ?_, hcreated⟩
  have hreadLocals := Reader.reads_counted hlocals (List.length_map _).symm hlocalCount
  have hreadStack := Reader.reads_counted hstack (List.length_map _).symm hstackCount
  have hread := Reader.reads_longFrame before (locals.map (·.located layout)) 255 (by decide)
    hdistance (hreadLocals.bind (hreadStack.andReturn (MapFrame.mk _ _)))
  simpa only [List.cons_append, List.append_assoc] using hread

theorem leaves_frameBytes (hlayout : layout.Fits) (locals : List VerificationType)
    (f : PlacedStack) :
    Leaves (frameBytes layout locals f) fun bytes l => IsFrame layout l locals f bytes := by
  obtain ⟨distance, stack⟩ := f
  rcases stack with _ | ⟨entry, _ | ⟨second, rest⟩⟩
  · exact leaves_pure fun l => isFrame_empty l locals distance
  · apply ((leaves_typeBytes hlayout entry).map _).imp
    rintro bytes l ⟨part, ⟨hread, hcreated⟩, rfl⟩
    exact isFrame_single locals distance hread hcreated
  · apply ((leaves_typesBytes hlayout locals).bind fun _ =>
      (leaves_typesBytes hlayout (entry :: second :: rest)).map _).imp
    rintro bytes l ⟨_, ⟨⟨localParts, rfl, hlocals⟩, -⟩, _,
      ⟨⟨stackParts, rfl, hstack⟩, hcreated⟩, rfl⟩
    exact isFrame_full distance hlocals hstack hcreated

def readFrame (layout : Layout) (locals : List VerificationType) (f : PlacedStack) : MapFrame :=
  ⟨f.1, locals.map (·.located layout), f.2.map (·.located layout)⟩

/-- The distance of the next frame leads from the frame before to it. -/
theorem distances_cons (before : Option Nat) (f : PlacedStack) (rest : List PlacedStack)
    (h : ∀ pc ∈ before, pc < f.1) :
    ∃ distance ≤ f.1, distances before (f :: rest) = (distance, f.2) :: distances (some f.1) rest ∧
      Reader.offsetAfter before distance = f.1 := by
  cases before with
  | none => exact ⟨f.1, Nat.le_refl _, rfl, rfl⟩
  | some before =>
    have hlt : before < f.1 := h before rfl
    refine ⟨f.1 - before - 1, by omega, rfl, ?_⟩
    rw [Reader.offsetAfter]
    omega

/-- Frames by rising offset, after one of lower offset if there is one. -/
theorem reads_frames {l : Linker} {locals : List VerificationType} {frames : List PlacedStack}
    {before : Option Nat} {parts : List (List UInt8)} (hlocals : locals.length < 65536)
    (hfits : ∀ f ∈ frames, f.1 < 65536 ∧ f.2.length < 65536)
    (hrising : frames.Pairwise fun f g => f.1 < g.1)
    (hbefore : ∀ pc ∈ before, ∀ f ∈ frames, pc < f.1)
    (h : List.Forall₂ (IsFrame layout l locals) (distances before frames) parts) :
    (Reader.frames l.pool.table.toList before (locals.map (·.located layout)) frames.length).Reads
        parts.flatten (frames.map (readFrame layout locals)) ∧
      ∀ f ∈ frames, ∀ t ∈ f.2, t.IsCreated layout := by
  -- The variables never change, so one frame hands on no more than its offset.
  induction frames generalizing before parts with
  | nil =>
    rw [distances] at h
    cases h
    exact ⟨Reader.reads_pure _, by simp⟩
  | cons f frames ih =>
    obtain ⟨hfirst, hrest⟩ := List.forall_mem_cons.1 hfits
    obtain ⟨hlater, hrising⟩ := List.pairwise_cons.1 hrising
    obtain ⟨distance, hle, hdistances, hoffset⟩ :=
      distances_cons before f frames fun pc hpc => hbefore pc hpc f List.mem_cons_self
    rw [hdistances] at h
    obtain _ | ⟨hframe, hframes⟩ := h
    obtain ⟨hread, hcreated⟩ := hframe (hle.trans_lt hfirst.1) hlocals hfirst.2
    obtain ⟨hreads, hall⟩ := ih hrest hrising
      (fun pc hpc g hg => Option.mem_some.1 hpc ▸ hlater g hg) hframes
    have hread := hread before
    rw [hoffset] at hread
    exact ⟨hread.bind (hreads.andReturn (readFrame layout locals f :: ·)),
      List.forall_mem_cons.2 ⟨hcreated, hall⟩⟩

def IsMap (layout : Layout) (l : Linker) (locals : List VerificationType)
    (frames : List PlacedStack) (table : List UInt8) : Prop :=
  ∃ parts, List.Forall₂ (IsFrame layout l locals) (distances none frames) parts ∧
    table = Word.bytes2 frames.length ++ parts.flatten

theorem leaves_bytes (hlayout : layout.Fits) (locals : List VerificationType)
    (frames : List PlacedStack) :
    Leaves (bytes layout locals frames) fun table l => IsMap layout l locals frames table := by
  apply ((Leaves.mapM (leaves_frameBytes hlayout locals) (distances none frames)).map _).imp
  rintro table l ⟨parts, hparts, rfl⟩
  exact ⟨parts, hparts, rfl⟩

theorem IsMap.reads {l : Linker} {locals : List VerificationType} {frames : List PlacedStack}
    {table : List UInt8} (h : IsMap layout l locals frames table) (hlocals : locals.length < 65536)
    (hcount : frames.length < 65536) (hfits : ∀ f ∈ frames, f.1 < 65536 ∧ f.2.length < 65536)
    (hrising : frames.Pairwise fun f g => f.1 < g.1) :
    (Reader.stackMap l.pool.table.toList (locals.map (·.located layout))).Reads table
        (frames.map (readFrame layout locals)) ∧
      ∀ f ∈ frames, ∀ t ∈ f.2, t.IsCreated layout := by
  obtain ⟨parts, hparts, rfl⟩ := h
  obtain ⟨hreads, hcreated⟩ := reads_frames hlocals hfits hrising (by simp) hparts
  exact ⟨(Reader.reads_u16 hcount).bind hreads, hcreated⟩

/-- Sorting keeps the order of the frames at one offset. -/
theorem filter_mergeSort (frames : List PlacedStack) (pc : Nat) :
    (frames.mergeSort fun f g => f.1 ≤ g.1).filter (·.1 = pc) = frames.filter (·.1 = pc) := by
  have hperm := List.mergeSort_perm frames fun f g => f.1 ≤ g.1
  -- Frames at one offset are sorted already, so they are a sublist of what sorting gives.
  have hequal : (frames.filter (·.1 = pc)).Pairwise fun f g => decide (f.1 ≤ g.1) = true := by
    apply List.pairwise_of_forall_mem_list
    intro f hf g hg
    simp only [List.mem_filter, decide_eq_true_eq] at hf hg ⊢
    omega
  have hsublist := (List.sublist_mergeSort (by simpa using fun _ _ _ => Nat.le_trans)
    (by simpa using Nat.le_total) hequal List.filter_sublist).filter (·.1 = pc)
  simp only [List.filter_filter, Bool.and_self] at hsublist
  exact (hsublist.eq_of_length (hperm.filter _).length_eq.symm).symm

theorem find?_foldl_addDistinct (frames kept : List PlacedStack) (pc : Nat) :
    (frames.foldl addDistinct kept).reverse.find? (·.1 = pc) =
      (kept.reverse ++ frames).find? (·.1 = pc) := by
  induction frames generalizing kept with
  | nil => simp
  | cons f frames ih =>
    rw [List.foldl_cons, ih]
    cases kept with
    | nil => rfl
    | cons g kept =>
      by_cases hsame : g.1 = f.1
      · rw [addDistinct, if_pos hsame, List.find?_append, List.find?_append, List.find?_cons]
        by_cases hpc : f.1 = pc
        · -- The frame that is left out is not the first at its offset.
          have hfound : ((g :: kept).reverse.find? (·.1 = pc)).isSome := by
            rw [List.find?_isSome]
            exact ⟨g, by simp, by simp [hsame, hpc]⟩
          rw [Option.or_of_isSome hfound, Option.or_of_isSome hfound]
        · simp [hpc]
      · rw [addDistinct, if_neg hsame]
        simp

/-- At each offset the first frame is kept. -/
theorem find?_arrange (frames : List PlacedStack) (pc : Nat) :
    (arrange frames).find? (·.1 = pc) = frames.find? (·.1 = pc) := by
  rw [arrange, find?_foldl_addDistinct, List.reverse_nil, List.nil_append, ← List.head?_filter,
    filter_mergeSort, List.head?_filter]

/-- A frame of a table is the first at its offset. -/
theorem find?_of_mem_arrange {frames : List PlacedStack} {f : PlacedStack}
    (hf : f ∈ arrange frames) : frames.find? (·.1 = f.1) = some f := by
  rw [← find?_arrange]
  obtain ⟨before, after, hsplit⟩ := List.append_of_mem hf
  have hrising := pairwise_arrange frames
  rw [hsplit] at hrising
  rw [hsplit, List.find?_eq_some_iff_append]
  refine ⟨by simp, before, after, rfl, fun g hg => ?_⟩
  have hlt := (List.pairwise_append.1 hrising).2.2 g hg f List.mem_cons_self
  simp [Nat.ne_of_lt hlt]

theorem mem_map_arrange {frames : List PlacedStack} {pc : Nat} :
    pc ∈ (arrange frames).map Prod.fst ↔ pc ∈ frames.map Prod.fst := by
  have hfound (frames : List PlacedStack) :
      pc ∈ frames.map Prod.fst ↔ (frames.find? (·.1 = pc)).isSome := by
    simp [List.find?_isSome]
  rw [hfound, hfound, find?_arrange]

end StackMap

theorem ExceptionEntry.leaves_bytes (layout : Layout) (method : String) (e : ExceptionEntry) :
    Leaves (e.bytes layout method) fun row l => e.IsRow layout method l row := by
  obtain ⟨start, stop, handler, catches⟩ := e
  cases catches with
  | none =>
    apply (leaves_ofExcept.bind fun start => leaves_ofExcept.bind fun stop =>
      leaves_ofExcept.map fun handler => _).imp
    rintro row l ⟨start, hstart, stop, hstop, handler, hhandler, rfl⟩
    exact ⟨start, stop, handler, 0, hstart, hstop, hhandler, rfl, rfl⟩
  | some name =>
    apply (leaves_ofExcept.bind fun start => leaves_ofExcept.bind fun stop =>
      leaves_ofExcept.bind fun handler => (leaves_classRef name).map fun caught => _).imp
    rintro row l ⟨start, hstart, stop, hstop, handler, hhandler, caught, hcaught, rfl⟩
    exact ⟨start, stop, handler, caught, hstart, hstop, hhandler, hcaught, rfl⟩

theorem leaves_lineAttribute (lines : List (Nat × Nat)) :
    Leaves (lineAttribute lines) fun attributes l =>
      l.IsAttribute "LineNumberTable" (lines ≠ []) (fun table => table =
        Word.bytes2 lines.length ++ lines.flatMap fun (start, number) =>
          Word.bytes2 start ++ Word.bytes2 number) attributes := by
  unfold lineAttribute
  by_cases hempty : lines.isEmpty = true
  · rw [if_pos hempty]
    rw [List.isEmpty_iff] at hempty
    exact leaves_pure fun _ => .inl ⟨by simp [hempty], rfl⟩
  · rw [if_neg hempty]
    rw [List.isEmpty_iff] at hempty
    apply ((leaves_utf8 "LineNumberTable").map _).imp
    rintro attributes l ⟨n, hn, rfl⟩
    exact .inr ⟨hempty, n, _, hn, rfl, rfl⟩

theorem leaves_stackMapAttribute {layout : Layout} (hlayout : layout.Fits) (m : Method) :
    Leaves (stackMapAttribute layout m) fun attributes l =>
      ∃ placed, m.body.frames.mapM (StackMap.place layout m.name) = .ok placed ∧
        l.IsAttribute "StackMapTable" (m.body.frames ≠ [])
          (StackMap.IsMap layout l m.body.locals (StackMap.arrange placed)) attributes := by
  unfold stackMapAttribute
  by_cases hempty : m.body.frames.isEmpty = true
  · rw [if_pos hempty]
    rw [List.isEmpty_iff] at hempty
    apply leaves_pure
    intro l
    rw [hempty]
    exact ⟨[], rfl, .inl ⟨by simp, rfl⟩⟩
  · rw [if_neg hempty]
    rw [List.isEmpty_iff] at hempty
    apply (leaves_ofExcept.bind fun placed => (leaves_utf8 "StackMapTable").bind fun name =>
      (StackMap.leaves_bytes hlayout m.body.locals (StackMap.arrange placed)).map
        fun table => _).imp
    rintro attributes l ⟨placed, hplaced, n, hn, table, htable, rfl⟩
    exact ⟨placed, hplaced, .inr ⟨hempty, n, table, hn, htable, rfl⟩⟩

structure MethodBody.Written (b : MethodBody) (name : String) (l : Linker) (p : CodeParts) :
    Prop where
  links : List.Forall₂ (Instruction.LinksTo l.pool.Numbers) b.instructions p.linked
  size_le : codeSize p.linked ≤ 65535
  encodes : p.layout.code name = .ok p.code
  handlers : List.Forall₂ (ExceptionEntry.IsRow p.layout name l) b.handlers p.rows
  lines : l.IsAttribute "LineNumberTable" (p.layout.lineTable ≠ [])
    (fun table => table = Word.bytes2 p.layout.lineTable.length ++
      p.layout.lineTable.flatMap fun (start, number) =>
        Word.bytes2 start ++ Word.bytes2 number) p.lines
  stackMap : ∃ placed, b.frames.mapM (StackMap.place p.layout name) = .ok placed ∧
    l.IsAttribute "StackMapTable" (b.frames ≠ [])
      (StackMap.IsMap p.layout l b.locals (StackMap.arrange placed)) p.stackMap

namespace Method

theorem leaves_codeParts (m : Method) :
    Leaves m.codeParts fun p l => m.body.Written m.name l p := by
  apply ((Leaves.mapM Instruction.leaves_link m.body.instructions).bind fun linked =>
    Leaves.unless fun hsize => leaves_ofExcept.bind fun code =>
      (Leaves.mapM (ExceptionEntry.leaves_bytes _ m.name) m.body.handlers).bind fun rows =>
        (leaves_lineAttribute _).bind fun lines =>
          (leaves_stackMapAttribute (Layout.fits_ofList
            (by simpa [AssemblyFault.limit] using (not_or.1 hsize).2)) m).map
              fun stackMap => _).imp
  rintro p l ⟨linked, hlinked, hsize, code, hcode, rows, hrows, lines, hlines, stackMap, hstackMap,
    rfl⟩
  rw [not_or, Layout.size_ofList, AssemblyFault.limit] at hsize
  exact ⟨hlinked, Nat.not_lt.1 hsize.2, hcode, hrows, hlines, hstackMap⟩

/-- A code attribute that is written is written from its parts. -/
theorem exists_codeParts {m : Method} {l l' : Linker} {bytes : List UInt8}
    (h : m.codeBytes l = .ok bytes l') :
    ∃ p, m.codeParts l = .ok p l' ∧ bytes = p.bytes m.body := by
  rw [codeBytes_eq, map_eq_pure_bind] at h
  obtain ⟨p, middle, hp, h⟩ := bind_ok h
  cases h
  exact ⟨p, hp, rfl⟩

end Method

namespace MethodBody

def frameOffsets (b : MethodBody) (layout : Layout) : List Nat :=
  b.frames.filterMap fun f => layout.labels[f.label]?

/-- The frames that belong in the stack map of a body: by rising offset one for each offset of a
label that has a frame, with the variables on entry and the stack of the first label there. -/
structure IsMapped (b : MethodBody) (layout : Layout) (frames : List MapFrame) : Prop where
  rising : frames.Pairwise fun f g => f.offset < g.offset
  offsets : ∀ pc, pc ∈ frames.map MapFrame.offset ↔ pc ∈ b.frameOffsets layout
  locals : ∀ f ∈ frames, f.locals = b.locals.map (·.located layout)
  stack : ∀ f ∈ frames, ∃ g,
    b.frames.find? (fun g => layout.labels[g.label]? = some f.offset) = some g ∧
      f.stack = g.stack.map (·.located layout) ∧ ∀ t ∈ g.stack, t.IsCreated layout

variable {b : MethodBody} {name : String}

theorem place_ok {layout : Layout} {f : Frame} {x : StackMap.PlacedStack}
    (h : StackMap.place layout name f = .ok x) :
    layout.labels[f.label]? = some x.1 ∧ x.2 = f.stack := by
  obtain ⟨pc, hpc, h⟩ := except_bind_ok h
  cases h
  refine ⟨?_, rfl⟩
  rw [Layout.offset] at hpc
  split at hpc
  · rename_i offset hoffset
    cases hpc
    exact hoffset
  · cases hpc

theorem frameOffsets_eq {layout : Layout} {placed : List StackMap.PlacedStack}
    (h : b.frames.mapM (StackMap.place layout name) = .ok placed) :
    b.frameOffsets layout = placed.map Prod.fst := by
  have hplaced := except_mapM_ok h
  rw [frameOffsets]
  generalize b.frames = frames at hplaced
  clear h
  induction hplaced with
  | nil => rfl
  | cons hfirst _ ih => simp [(place_ok hfirst).1, ih]

/-- The first placed stack at an offset is that of the first frame whose label is there. -/
theorem find?_placed {layout : Layout} {placed : List StackMap.PlacedStack}
    (h : b.frames.mapM (StackMap.place layout name) = .ok placed) {pc : Nat}
    {x : StackMap.PlacedStack} (hx : placed.find? (·.1 = pc) = some x) :
    ∃ g, b.frames.find? (fun g => layout.labels[g.label]? = some pc) = some g ∧ x.2 = g.stack := by
  have hplaced := except_mapM_ok h
  generalize b.frames = frames at hplaced
  clear h
  induction hplaced with
  | nil => cases hx
  | @cons f y frames placed hfirst _ ih =>
    obtain ⟨hlabel, hstack⟩ := place_ok hfirst
    rw [List.find?_cons] at hx ⊢
    rw [hlabel]
    by_cases hpc : y.1 = pc
    · simp only [hpc, decide_true] at hx ⊢
      cases hx
      exact ⟨f, rfl, hstack⟩
    · simp only [hpc, decide_false, Option.some.injEq] at hx ⊢
      exact ih hx

theorem isMapped_arrange {layout : Layout} {placed : List StackMap.PlacedStack}
    (h : b.frames.mapM (StackMap.place layout name) = .ok placed)
    (hcreated : ∀ f ∈ StackMap.arrange placed, ∀ t ∈ f.2, t.IsCreated layout) :
    b.IsMapped layout ((StackMap.arrange placed).map (StackMap.readFrame layout b.locals)) where
  rising := List.pairwise_map.2 (StackMap.pairwise_arrange placed)
  offsets pc := by
    rw [List.map_map, frameOffsets_eq h]
    exact StackMap.mem_map_arrange
  locals := List.forall_mem_map.2 fun _ _ => rfl
  stack := by
    rw [List.forall_mem_map]
    intro x hx
    obtain ⟨g, hg, hstack⟩ := find?_placed h (StackMap.find?_of_mem_arrange hx)
    exact ⟨g, hg, by rw [← hstack]; rfl, hstack ▸ hcreated x hx⟩

/-- Frames that are placed have offsets of 16 bits and stacks of the body. -/
theorem fits_arrange {linked : List Linked} (hsize : codeSize linked ≤ 65535)
    {placed : List StackMap.PlacedStack}
    (h : b.frames.mapM (StackMap.place (.ofList linked) name) = .ok placed)
    (hstacks : ∀ f ∈ b.frames, f.stack.length < 65536) :
    ∀ f ∈ StackMap.arrange placed, f.1 < 65536 ∧ f.2.length < 65536 := by
  intro x hx
  have hmem := List.mem_of_find?_eq_some (StackMap.find?_of_mem_arrange hx)
  obtain ⟨f, hf, hplace⟩ := exists_of_mem_right (except_mapM_ok h) hmem
  obtain ⟨hlabel, hstack⟩ := place_ok hplace
  have hle : x.1 ≤ codeSize linked := by
    have hoffset : (Layout.ofList linked).offset name f.label = .ok x.1 := by
      rw [Layout.offset, hlabel]
    exact Layout.offset_le hoffset
  exact ⟨by omega, hstack ▸ hstacks f hf⟩

/-- The placed stacks decide both what belongs in the map and how it is read. -/
theorem Written.reads_stackMap {l : Linker} {p : CodeParts} {placed : List StackMap.PlacedStack}
    (w : b.Written name l p) (hplaced : b.frames.mapM (StackMap.place p.layout name) = .ok placed)
    (hlocals : b.locals.length < 65536) (hstacks : ∀ f ∈ b.frames, f.stack.length < 65536)
    (hcount : (b.frameOffsets p.layout).toFinset.card < 65536) :
    b.IsMapped p.layout ((StackMap.arrange placed).map (StackMap.readFrame p.layout b.locals)) ∧
      l.IsAttribute "StackMapTable" (b.frames ≠ [])
        (fun table => (Reader.stackMap l.pool.table.toList
          (b.locals.map (·.located p.layout))).Reads table
            ((StackMap.arrange placed).map (StackMap.readFrame p.layout b.locals)))
        p.stackMap := by
  obtain ⟨placed', hplaced', hattribute⟩ := w.stackMap
  obtain rfl : placed' = placed := Except.ok.inj (hplaced'.symm.trans hplaced)
  rcases hattribute with ⟨hnone, hempty⟩ | ⟨hsome, n, table, hn, htable, hone⟩
  · have hnil : placed' = [] := by
      rw [not_ne_iff.1 hnone] at hplaced
      cases hplaced
      rfl
    subst hnil
    exact ⟨isMapped_arrange hplaced (by simp [StackMap.arrange]), .inl ⟨hnone, hempty⟩⟩
  · rw [frameOffsets_eq hplaced, ← StackMap.length_arrange] at hcount
    obtain ⟨hreads, hcreated⟩ := htable.reads hlocals hcount
      (fits_arrange w.size_le hplaced hstacks) (StackMap.pairwise_arrange placed')
    exact ⟨isMapped_arrange hplaced hcreated, .inr ⟨hsome, n, table, hn, hreads, hone⟩⟩

end MethodBody

/-- The stack map of every method that is written is read as the frames that belong in it, with the
constants of any pool that its own grows into. -/
theorem Method.stackMap_reads_frames {m : Method} {l l' : Linker} {bytes : List UInt8}
    (h : m.codeBytes l = .ok bytes l') (hlocals : m.body.locals.length < 65536)
    (hstacks : ∀ f ∈ m.body.frames, f.stack.length < 65536) :
    ∃ p, m.codeParts l = .ok p l' ∧ bytes = p.bytes m.body ∧
      ((m.body.frameOffsets p.layout).toFinset.card < 65536 →
        ∃ frames, m.body.IsMapped p.layout frames ∧
          ∀ later : Linker, l'.pool.Grows later.pool →
            later.IsAttribute "StackMapTable" (m.body.frames ≠ [])
              (fun table => (Reader.stackMap later.pool.table.toList
                (m.body.locals.map (·.located p.layout))).Reads table frames) p.stackMap) := by
  obtain ⟨p, hp, hbytes⟩ := exists_codeParts h
  refine ⟨p, hp, hbytes, fun hcount => ?_⟩
  obtain ⟨-, hwritten⟩ := leaves_codeParts m l p l' hp
  have hnow := hwritten l' (.refl _)
  obtain ⟨placed, hplaced, -⟩ := hnow.stackMap
  refine ⟨_, (hnow.reads_stackMap hplaced hlocals hstacks hcount).1, fun later hlater => ?_⟩
  exact ((hwritten later hlater).reads_stackMap hplaced hlocals hstacks hcount).2

/-- Two labels stand at one offset, with an object under construction on the stack. -/
def Greeter.make : Method where
  access := Access.isPublic
  name := "make"
  descriptor := "()Ljava/lang/Object;"
  body := {
    instructions := [.jump .goto ⟨0⟩, .classRef .new "st/Greeter", .plain .dup, .mark ⟨1⟩,
      .mark ⟨2⟩, .plain .pop, .mark ⟨0⟩, .plain .aconstNull, .plain .areturn]
    handlers := []
    frames := [⟨⟨0⟩, []⟩, ⟨⟨2⟩, [.uninitialized 1, .uninitialized 1]⟩, ⟨⟨1⟩, [.null]⟩]
    locals := [.object "st/Greeter"]
    maxStack := 2
    maxLocals := 1 }

theorem stackMap_reads_frames_make : ∃ bytes l' p frames,
    Greeter.make.codeBytes {} = .ok bytes l' ∧ Greeter.make.codeParts {} = .ok p l' ∧
      Greeter.make.body.IsMapped p.layout frames ∧
      l'.IsAttribute "StackMapTable" (Greeter.make.body.frames ≠ [])
        (fun table => (Reader.stackMap l'.pool.table.toList
          (Greeter.make.body.locals.map (·.located p.layout))).Reads table frames) p.stackMap := by
  have hspends := Method.spends_codeBytes (m := Greeter.make) (by decide)
    (short_of_bytes (by decide))
  obtain ⟨bytes, l', h, -⟩ := hspends {} (by decide)
  obtain ⟨p, hp, -, hread⟩ := Method.stackMap_reads_frames h (by decide) (by decide)
  have hcount : (Greeter.make.body.frameOffsets p.layout).toFinset.card ≤ 3 :=
    (List.toFinset_card_le _).trans (List.length_filterMap_le _ _)
  obtain ⟨frames, hmapped, hlater⟩ := hread (by omega)
  exact ⟨bytes, l', p, frames, h, hp, hmapped, hlater l' (.refl _)⟩

end SmalltalkJvm
