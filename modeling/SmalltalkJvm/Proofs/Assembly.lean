import SmalltalkJvm.Proofs.Linkage
import SmalltalkJvm.Proofs.Offsets

/-! # Assembled classes

The parts that a class file is written from: of a method the linked instructions with their bytes,
the rows of the exception table and the attributes of the code. What these parts say about numbers
in the pool holds in every later pool, so also in the one that is written.
-/

namespace SmalltalkJvm

structure CodeParts where
  linked : List Linked
  code : List UInt8
  rows : List (List UInt8)
  lines : List (List UInt8)
  stackMap : List (List UInt8)

namespace CodeParts

def layout (p : CodeParts) : Layout := Layout.ofList p.linked

def attributes (p : CodeParts) : List (List UInt8) := p.lines ++ p.stackMap

def bytes (p : CodeParts) (b : MethodBody) : List UInt8 :=
  Word.bytes2 b.maxStack.toNat ++ Word.bytes2 b.maxLocals.toNat ++
    Word.bytes4 p.code.length ++ p.code ++
    Word.bytes2 b.handlers.length ++ p.rows.flatten ++
    Word.bytes2 p.attributes.length ++ p.attributes.flatten

end CodeParts

def Method.codeParts (m : Method) : Link CodeParts := do
  let linked ← m.body.instructions.mapM Instruction.link
  let layout := Layout.ofList linked
  if layout.size = 0 ∨ AssemblyFault.limit < layout.size then
    throw (.codeLength m.name layout.size)
  let code ← Link.ofExcept (layout.code m.name)
  let rows ← m.body.handlers.mapM (ExceptionEntry.bytes layout m.name)
  let lines ← lineAttribute layout.lineTable
  let stackMap ← stackMapAttribute layout m
  return { linked, code, rows, lines, stackMap }

theorem Method.codeBytes_eq (m : Method) :
    m.codeBytes = (fun p => p.bytes m.body) <$> m.codeParts := by
  simp only [codeBytes, codeParts, map_bind]
  congr! 2
  split_ifs <;> simp only [map_bind, map_pure] <;> rfl

structure MethodParts where
  name : Nat
  descriptor : Nat
  code : Nat
  body : CodeParts

def MethodParts.bytes (p : MethodParts) (m : Method) : List UInt8 :=
  Word.bytes2 m.access.toNat ++ Word.bytes2 p.name ++ Word.bytes2 p.descriptor ++ Word.bytes2 1 ++
    attributeBytes p.code (p.body.bytes m.body)

def Method.parts (m : Method) : Link MethodParts := do
  let name ← ConstantPool.utf8 m.name
  let descriptor ← ConstantPool.utf8 m.descriptor
  let code ← ConstantPool.utf8 "Code"
  let body ← m.codeParts
  return { name, descriptor, code, body }

theorem Method.bytes_eq (m : Method) : m.bytes = (fun p => p.bytes m) <$> m.parts := by
  simp only [bytes, parts, codeBytes_eq, map_bind, map_pure, bind_map_left]
  rfl

structure ClassParts where
  thisClass : Nat
  superClass : Nat
  methods : List MethodParts
  source : List (List UInt8)
  inner : List (List UInt8)
  bootstraps : List (List UInt8)

namespace ClassParts

def attributes (p : ClassParts) : List (List UInt8) := p.source ++ p.inner ++ p.bootstraps

def methodBytes (p : ClassParts) (c : ClassFile) : List (List UInt8) :=
  List.zipWith MethodParts.bytes p.methods c.methods

/-- Everything after the pool. -/
def body (p : ClassParts) (c : ClassFile) : List UInt8 :=
  Word.bytes2 c.access.toNat ++ Word.bytes2 p.thisClass ++ Word.bytes2 p.superClass ++
    Word.bytes2 0 ++ Word.bytes2 0 ++
    Word.bytes2 c.methods.length ++ (p.methodBytes c).flatten ++
    Word.bytes2 p.attributes.length ++ p.attributes.flatten

def bytes (p : ClassParts) (c : ClassFile) (l : Linker) : List UInt8 :=
  Word.bytes4 magic ++ Word.bytes2 0 ++ Word.bytes2 majorVersion ++ Word.bytes2 l.pool.count ++
    l.pool.bytes ++ p.body c

end ClassParts

def ClassFile.parts (c : ClassFile) : Link ClassParts := do
  let thisClass ← ConstantPool.classRef c.name
  let superClass ← ConstantPool.classRef c.superName
  let methods ← c.methods.mapM Method.parts
  let source ← sourceAttribute c.sourceFile
  let inner ← innerClassesAttribute c.innerClasses
  let bootstraps ← bootstrapAttribute
  return { thisClass, superClass, methods, source, inner, bootstraps }

theorem Method.mapM_bytes_eq (methods : List Method) :
    methods.mapM Method.bytes =
      (fun parts => List.zipWith MethodParts.bytes parts methods) <$>
        methods.mapM Method.parts := by
  induction methods with
  | nil => rfl
  | cons m methods ih =>
    simp only [List.mapM_cons, ih, Method.bytes_eq, map_bind, map_pure, bind_map_left]
    rfl

theorem ClassFile.bodyBytes_eq (c : ClassFile) : c.bodyBytes = (fun p => p.body c) <$> c.parts := by
  simp only [bodyBytes, parts, Method.mapM_bytes_eq, map_bind, map_pure, bind_map_left]
  rfl

/-- A class that can be written is written from its parts. -/
theorem ClassFile.exists_parts {c : ClassFile} {b : List UInt8} (h : c.bytes = .ok b) :
    ∃ p l, c.parts {} = .ok p l ∧ b = p.bytes c l := by
  unfold ClassFile.bytes at h
  rw [bodyBytes_eq, map_eq_pure_bind] at h
  split at h
  · rename_i body l hbody
    cases h
    obtain ⟨p, l, hp, hbody⟩ := bind_ok hbody
    cases hbody
    exact ⟨p, l, hp, rfl⟩
  · cases h

/-- At most one attribute: it has the name given and a body as described, if it is there. -/
def Linker.IsAttribute (l : Linker) (name : String) (present : Prop) (Q : List UInt8 → Prop)
    (attributes : List (List UInt8)) : Prop :=
  ¬present ∧ attributes = [] ∨
    present ∧ ∃ n body, l.pool.IsText n name ∧ Q body ∧ attributes = [attributeBytes n body]

/-- A row of an exception table holds the offsets of an entry's labels and its class, if there is
one. -/
def ExceptionEntry.IsRow (layout : Layout) (method : String) (l : Linker) (e : ExceptionEntry)
    (row : List UInt8) : Prop :=
  ∃ start stop handler caught, layout.offset method e.start = .ok start ∧
    layout.offset method e.stop = .ok stop ∧ layout.offset method e.handler = .ok handler ∧
    (match e.catches with
      | some name => l.pool.IsClass caught name
      | none => caught = 0) ∧
    row = Word.bytes2 start ++ Word.bytes2 stop ++ Word.bytes2 handler ++ Word.bytes2 caught

namespace StackMap

def frameBound (locals stack : List VerificationType) : Nat :=
  7 + 3 * (locals.length + stack.length)

/-- A stack map is the number of its frames and a part for each of them. -/
def IsTable (locals : List VerificationType) (frames : List PlacedStack) (table : List UInt8) :
    Prop :=
  ∃ parts, List.Forall₂ (fun f part => part.length ≤ frameBound locals f.2) (distances none frames)
    parts ∧ table = Word.bytes2 frames.length ++ parts.flatten

end StackMap

structure MethodBody.Assembled (b : MethodBody) (name : String) (l : Linker) (p : CodeParts) :
    Prop where
  links : List.Forall₂ (Instruction.LinksTo l.Denotes) b.instructions p.linked
  size_pos : 0 < codeSize p.linked
  size_le : codeSize p.linked ≤ 65535
  encodes : p.layout.code name = .ok p.code
  handlers : List.Forall₂ (ExceptionEntry.IsRow p.layout name l) b.handlers p.rows
  lines : l.IsAttribute "LineNumberTable" (p.layout.lineTable ≠ [])
    (fun body => body = Word.bytes2 p.layout.lineTable.length ++
      p.layout.lineTable.flatMap fun (start, number) =>
        Word.bytes2 start ++ Word.bytes2 number) p.lines
  stackMap : l.IsAttribute "StackMapTable" (b.frames ≠ [])
    (fun body => ∃ placed, b.frames.mapM (StackMap.place p.layout name) = .ok placed ∧
      StackMap.IsTable b.locals (StackMap.arrange placed) body) p.stackMap

open Link

theorem Link.ensures_utf8 (text : String) :
    Ensures (ofRequest (ConstantPool.utf8 text)) [] fun i l => l.pool.IsText i text :=
  ensures_ofRequest (ConstantPool.ensures_utf8 text) rfl rfl

theorem Link.ensures_classRef (name : String) :
    Ensures (ofRequest (ConstantPool.classRef name)) [] fun i l => l.pool.IsClass i name :=
  ensures_ofRequest (ConstantPool.ensures_classRef name) rfl rfl

/-- Actions that link no code link none together. -/
theorem Link.Ensures.mapM_nil {α γ : Type} {f : γ → Link α} {Q : γ → α → Linker → Prop}
    (h : ∀ x, Ensures (f x) [] (Q x)) (xs : List γ) :
    Ensures (xs.mapM f) [] fun ys l => List.Forall₂ (fun x y => Q x y l) xs ys := by
  have hall := Ensures.mapM h xs
  rwa [List.flatMap_eq_nil_iff.2 fun _ _ => rfl] at hall

/-- A check before an action. -/
theorem Link.Ensures.unless {α : Type} {c : Prop} [Decidable c] {fault : AssemblyFault}
    {f : Unit → Link α} {code : List Instruction} {Q : α → Linker → Prop}
    (h : ¬c → Ensures (f ()) code Q) :
    Ensures (if c then throw fault >>= f else f ()) code fun a l => ¬c ∧ Q a l := by
  split_ifs with hc
  · rintro l a l' linked hl ⟨⟩
  · exact (h hc).imp fun a l hq => ⟨hc, hq⟩

theorem ExceptionEntry.ensures_bytes (layout : Layout) (method : String) (e : ExceptionEntry) :
    Ensures (e.bytes layout method) [] fun row l => e.IsRow layout method l row := by
  obtain ⟨start, stop, handler, catches⟩ := e
  cases catches with
  | none =>
    refine (ensures_ofExcept.bind fun start => ensures_ofExcept.bind fun stop =>
      ensures_ofExcept.map fun handler => _).imp ?_
    rintro row l ⟨start, hstart, stop, hstop, handler, hhandler, rfl⟩
    exact ⟨start, stop, handler, 0, hstart, hstop, hhandler, rfl, rfl⟩
  | some name =>
    refine (ensures_ofExcept.bind fun start => ensures_ofExcept.bind fun stop =>
      ensures_ofExcept.bind fun handler => (ensures_classRef name).map fun caught => _).imp ?_
    rintro row l ⟨start, hstart, stop, hstop, handler, hhandler, caught, hcaught, rfl⟩
    exact ⟨start, stop, handler, caught, hstart, hstop, hhandler, hcaught, rfl⟩

/-- An attribute of some items is there if there are any. -/
theorem ensures_unlessEmpty {α : Type} {items : List α} {name : String}
    {x : Link (List (List UInt8))} {Q : Linker → List UInt8 → Prop}
    (h : Ensures x [] fun attributes l => ∃ n body, l.pool.IsText n name ∧ Q l body ∧
      attributes = [attributeBytes n body]) :
    Ensures (if items.isEmpty then pure [] else x) [] fun attributes l =>
      l.IsAttribute name (items ≠ []) (Q l) attributes := by
  cases items with
  | nil => exact ensures_pure (fun l => .inl ⟨by simp, rfl⟩) rfl rfl
  | cons item items => exact h.imp fun attributes l hx => .inr ⟨by simp, hx⟩

theorem ensures_lineAttribute (lines : List (Nat × Nat)) :
    Ensures (lineAttribute lines) [] fun attributes l =>
      l.IsAttribute "LineNumberTable" (lines ≠ []) (fun body => body = Word.bytes2 lines.length ++
        lines.flatMap fun (start, number) => Word.bytes2 start ++ Word.bytes2 number)
        attributes := by
  refine ensures_unlessEmpty (((ensures_utf8 "LineNumberTable").map fun name => _).imp ?_)
  rintro attributes l ⟨n, hn, rfl⟩
  exact ⟨n, _, hn, rfl, rfl⟩

namespace StackMap

variable (layout : Layout)

theorem ensures_typeBytes (t : VerificationType) :
    Ensures (typeBytes layout t) [] fun bytes _ => bytes.length ≤ 3 := by
  cases t with
  | object name =>
    refine ((ensures_classRef name).map fun _ => _).imp ?_
    rintro bytes l ⟨index, -, rfl⟩
    exact Nat.le_refl 3
  | uninitialized creation =>
    rw [typeBytes]
    split
    · exact ensures_pure (fun _ => Nat.le_refl 3) rfl rfl
    · exact ensures_throw _
  | _ => exact ensures_pure (fun _ => by decide) rfl rfl

theorem ensures_typesBytes (types : List VerificationType) :
    Ensures (typesBytes layout types) [] fun bytes _ => bytes.length ≤ 3 * types.length := by
  refine ((Ensures.mapM_nil (ensures_typeBytes layout) types).map List.flatten).imp ?_
  rintro bytes l ⟨parts, hparts, rfl⟩
  induction hparts with
  | nil => exact Nat.le_refl 0
  | cons hfirst _ ih =>
    rw [List.flatten_cons, List.length_append, List.length_cons]
    omega

theorem ensures_frameBytes (locals : List VerificationType) (f : PlacedStack) :
    Ensures (frameBytes layout locals f) [] fun bytes _ =>
      bytes.length ≤ frameBound locals f.2 := by
  obtain ⟨delta, stack⟩ := f
  match stack with
  | [] =>
    refine ensures_pure (fun _ => ?_) rfl rfl
    split_ifs <;> simp [frameBound] <;> omega
  | [entry] =>
    refine ((ensures_typeBytes layout entry).map fun _ => _).imp ?_
    rintro bytes l ⟨entry, hentry, rfl⟩
    rw [List.length_append, frameBound]
    split_ifs <;> simp <;> omega
  | first :: second :: rest =>
    refine ((ensures_typesBytes layout locals).bind fun _ =>
      (ensures_typesBytes layout (first :: second :: rest)).map fun _ => _).imp ?_
    rintro bytes l ⟨localTypes, hlocals, stackTypes, hstack, rfl⟩
    simp only [List.length_append, List.length_cons, Word.length_bytes2, frameBound] at hstack ⊢
    omega

theorem ensures_bytes (locals : List VerificationType) (frames : List PlacedStack) :
    Ensures (bytes layout locals frames) [] fun table _ => IsTable locals frames table := by
  refine ((Ensures.mapM_nil (ensures_frameBytes layout locals) (distances none frames)).map
    fun parts => _).imp ?_
  rintro table l ⟨parts, hparts, rfl⟩
  exact ⟨parts, hparts, rfl⟩

end StackMap

theorem ensures_stackMapAttribute (layout : Layout) (m : Method) :
    Ensures (stackMapAttribute layout m) [] fun attributes l =>
      l.IsAttribute "StackMapTable" (m.body.frames ≠ []) (fun body => ∃ placed,
        m.body.frames.mapM (StackMap.place layout m.name) = .ok placed ∧
          StackMap.IsTable m.body.locals (StackMap.arrange placed) body) attributes := by
  refine ensures_unlessEmpty ((ensures_ofExcept.bind fun placed =>
    (ensures_utf8 "StackMapTable").bind fun name => (StackMap.ensures_bytes layout m.body.locals
      (StackMap.arrange placed)).map fun table => _).imp ?_)
  rintro attributes l ⟨placed, hplaced, n, hn, table, htable, rfl⟩
  exact ⟨n, table, hn, ⟨placed, hplaced, htable⟩, rfl⟩

theorem Method.ensures_codeParts (m : Method) :
    Ensures m.codeParts m.body.instructions fun p l => m.body.Assembled m.name l p := by
  have hlink := Ensures.mapM Instruction.ensures_link m.body.instructions
  rw [List.flatMap_singleton'] at hlink
  rw [← List.append_nil m.body.instructions]
  refine (hlink.bind fun linked => Ensures.unless fun _ => ensures_ofExcept.bind fun code =>
    (Ensures.mapM_nil (ExceptionEntry.ensures_bytes _ m.name) m.body.handlers).bind fun rows =>
      (ensures_lineAttribute _).bind fun lines =>
        (ensures_stackMapAttribute _ m).map fun stackMap => _).imp ?_
  rintro p l ⟨linked, hlinked, hsize, code, hcode, rows, hrows, lines, hlines, stackMap,
    hstackMap, rfl⟩
  rw [not_or, Layout.size_ofList, AssemblyFault.limit] at hsize
  exact ⟨hlinked, Nat.pos_of_ne_zero hsize.1, Nat.not_lt.1 hsize.2, hcode, hrows, hlines,
    hstackMap⟩

structure Method.Assembled (l : Linker) (m : Method) (p : MethodParts) : Prop where
  name : l.pool.IsText p.name m.name
  descriptor : l.pool.IsText p.descriptor m.descriptor
  code : l.pool.IsText p.code "Code"
  body : m.body.Assembled m.name l p.body

theorem Method.ensures_parts (m : Method) :
    Ensures m.parts m.body.instructions fun p l => m.Assembled l p := by
  refine ((ensures_utf8 m.name).bind fun name => (ensures_utf8 m.descriptor).bind fun descriptor =>
    (ensures_utf8 "Code").bind fun code => m.ensures_codeParts.map fun body => _).imp ?_
  rintro p l ⟨name, hname, descriptor, hdescriptor, code, hcode, body, hbody, rfl⟩
  exact ⟨hname, hdescriptor, hcode, hbody⟩

def InnerClass.IsRow (l : Linker) (c : InnerClass) (row : List UInt8) : Prop :=
  ∃ inner outer name, l.pool.IsClass inner c.inner ∧ l.pool.IsClass outer c.outer ∧
    l.pool.IsText name c.name ∧
    row = Word.bytes2 inner ++ Word.bytes2 outer ++ Word.bytes2 name ++ Word.bytes2 c.access.toNat

theorem InnerClass.ensures_bytes (c : InnerClass) :
    Ensures c.bytes [] fun row l => c.IsRow l row := by
  refine ((ensures_classRef c.inner).bind fun _ => (ensures_classRef c.outer).bind fun _ =>
    (ensures_utf8 c.name).map fun _ => _).imp ?_
  rintro row l ⟨inner, hinner, outer, houter, name, hname, rfl⟩
  exact ⟨inner, outer, name, hinner, houter, hname, rfl⟩

theorem ensures_sourceAttribute (source : Option String) :
    Ensures (sourceAttribute source) [] fun attributes l =>
      l.IsAttribute "SourceFile" (source ≠ none) (fun body => ∃ text i, source = some text ∧
        l.pool.IsText i text ∧ body = Word.bytes2 i) attributes := by
  cases source with
  | none => exact ensures_pure (fun l => .inl ⟨by simp, rfl⟩) rfl rfl
  | some text =>
    refine ((ensures_utf8 "SourceFile").bind fun name =>
      (ensures_utf8 text).map fun source => _).imp ?_
    rintro attributes l ⟨n, hn, i, hi, rfl⟩
    exact .inr ⟨by simp, n, _, hn, ⟨text, i, rfl, hi, rfl⟩, rfl⟩

theorem ensures_innerClassesAttribute (classes : List InnerClass) :
    Ensures (innerClassesAttribute classes) [] fun attributes l =>
      l.IsAttribute "InnerClasses" (classes ≠ []) (fun body => ∃ rows,
        List.Forall₂ (InnerClass.IsRow l) classes rows ∧
          body = Word.bytes2 classes.length ++ rows.flatten) attributes := by
  refine ensures_unlessEmpty (((ensures_utf8 "InnerClasses").bind fun name =>
    (Ensures.mapM_nil InnerClass.ensures_bytes classes).map fun rows => _).imp ?_)
  rintro attributes l ⟨n, hn, rows, hrows, rfl⟩
  exact ⟨n, _, hn, ⟨rows, hrows, rfl⟩, rfl⟩

/-- Nothing is linked after the bootstrap table, which is therefore complete. -/
theorem ensures_bootstrapAttribute {l l' : Linker} {linked : List Instruction}
    {attributes : List (List UInt8)} (hl : l.Holds linked)
    (h : bootstrapAttribute l = .ok attributes l') :
    l.Grows l' ∧ l'.Holds linked ∧ l'.IsAttribute "BootstrapMethods" (l'.bootstraps.toList ≠ [])
      (fun body => body = Word.bytes2 l'.bootstraps.toList.length ++
        l'.bootstraps.toList.flatMap Bootstrap.bytes) attributes := by
  obtain ⟨state, l₁, hget, h⟩ := bind_ok h
  cases hget
  dsimp only at h
  split_ifs at h with hempty
  · cases h
    rw [List.isEmpty_iff] at hempty
    exact ⟨.refl _, hl, .inl ⟨by simp [hempty], rfl⟩⟩
  · obtain ⟨n, l₂, hn, h⟩ := bind_ok h
    cases h
    rw [List.isEmpty_iff] at hempty
    obtain ⟨hgrows, hholds, htext⟩ := ensures_utf8 "BootstrapMethods" l n l' linked hl hn
    rw [List.append_nil] at hholds
    have hsame : l'.bootstraps = l.bootstraps := by
      obtain ⟨pool, bootstraps⟩ := l
      have hrequest : ofRequest (ConstantPool.utf8 "BootstrapMethods") ⟨pool, bootstraps⟩ =
        .ok n l' := hn
      simp only [ofRequest] at hrequest
      split at hrequest <;> cases hrequest
      rfl
    rw [hsame]
    exact ⟨hgrows, hholds, .inr ⟨hempty, n, _, htext l' (.refl _), rfl, rfl⟩⟩

/-- The parts of an assembled class, with the linker that holds its pool and its bootstrap
table. -/
structure ClassFile.Assembled (c : ClassFile) (l : Linker) (p : ClassParts) : Prop where
  thisClass : l.pool.IsClass p.thisClass c.name
  superClass : l.pool.IsClass p.superClass c.superName
  methods : List.Forall₂ (Method.Assembled l) c.methods p.methods
  source : l.IsAttribute "SourceFile" (c.sourceFile ≠ none) (fun body => ∃ text i,
    c.sourceFile = some text ∧ l.pool.IsText i text ∧ body = Word.bytes2 i) p.source
  inner : l.IsAttribute "InnerClasses" (c.innerClasses ≠ []) (fun body => ∃ rows,
    List.Forall₂ (InnerClass.IsRow l) c.innerClasses rows ∧
      body = Word.bytes2 c.innerClasses.length ++ rows.flatten) p.inner
  bootstraps : l.IsAttribute "BootstrapMethods" (l.bootstraps.toList ≠ [])
    (fun body => body = Word.bytes2 l.bootstraps.toList.length ++
      l.bootstraps.toList.flatMap Bootstrap.bytes) p.bootstraps

def ClassFile.instructions (c : ClassFile) : List Instruction :=
  c.methods.flatMap (·.body.instructions)

/-- The parts of a class are assembled with a linker that has linked the code of all its methods. -/
theorem ClassFile.assembled_parts {c : ClassFile} {p : ClassParts} {l : Linker}
    (h : c.parts {} = .ok p l) : l.Holds c.instructions ∧ c.Assembled l p := by
  obtain ⟨thisClass, l₁, hthis, h⟩ := bind_ok h
  obtain ⟨superClass, l₂, hsuper, h⟩ := bind_ok h
  obtain ⟨methods, l₃, hmethods, h⟩ := bind_ok h
  obtain ⟨source, l₄, hsource, h⟩ := bind_ok h
  obtain ⟨inner, l₅, hinner, h⟩ := bind_ok h
  obtain ⟨bootstraps, l₆, hbootstraps, h⟩ := bind_ok h
  cases h
  obtain ⟨-, hholds, hthis⟩ := ensures_classRef c.name _ _ _ _ Linker.holds_empty hthis
  obtain ⟨hgrows₂, hholds, hsuper⟩ := ensures_classRef c.superName _ _ _ _ hholds hsuper
  obtain ⟨hgrows₃, hholds, hmethods⟩ :=
    Ensures.mapM Method.ensures_parts c.methods _ _ _ _ hholds hmethods
  obtain ⟨hgrows₄, hholds, hsource⟩ := ensures_sourceAttribute c.sourceFile _ _ _ _ hholds hsource
  obtain ⟨hgrows₅, hholds, hinner⟩ :=
    ensures_innerClassesAttribute c.innerClasses _ _ _ _ hholds hinner
  obtain ⟨hgrows₆, hholds, hbootstraps⟩ := ensures_bootstrapAttribute hholds hbootstraps
  rw [List.append_nil, List.append_nil] at hholds
  have hgrows₅ := hgrows₅.trans hgrows₆
  have hgrows₄ := hgrows₄.trans hgrows₅
  have hgrows₃ := hgrows₃.trans hgrows₄
  exact ⟨hholds, hthis l (hgrows₂.trans hgrows₃), hsuper l hgrows₃, hmethods l hgrows₄,
    hsource l hgrows₅, hinner l hgrows₆, hbootstraps⟩

end SmalltalkJvm
