import Mathlib.Tactic.Ring
import SmalltalkJvm.Proofs.BlockCreation
import SmalltalkJvm.Proofs.Budget
import SmalltalkJvm.Proofs.Distinct
import SmalltalkJvm.Proofs.RoundTrip

/-! # Numbers in compiled classes are written exactly

Most counts and offsets of a class file have two bytes, and writing keeps the low bits of a number
that is too large. Only the length of the code, the number of constants and the lengths of texts are
checked before. In the classes of a compiled unit every other number is small enough all the same:
the tables of a method are paid for by its code, and methods and bootstrap methods have constants
of their own.
-/

namespace SmalltalkJvm

open Compile

def Word.Exact2 (n : Nat) : Prop := ofBytes (bytes2 n) = n

def Word.Exact4 (n : Nat) : Prop := ofBytes (bytes4 n) = n

theorem Word.exact2_iff {n : Nat} : Exact2 n ↔ n < 65536 := by
  rw [Exact2, ofBytes_bytes2]
  omega

theorem Word.exact4_iff {n : Nat} : Exact4 n ↔ n < 4294967296 := by
  rw [Exact4, ofBytes_bytes4]
  omega

/-- The number of a constant has two bytes. -/
theorem ConstantPool.exact_of_get? {p : ConstantPool} {n : Nat} {c : Constant}
    (h : p.get? n = some c) : Word.Exact2 n :=
  Word.exact2_iff.2 ((lt_of_get? h).2.trans (by decide))

def Linked.Exact : Linked → Prop
  | push op value => op = .bipush → -128 ≤ value.toInt ∧ value.toInt ≤ 127
  | constant n | pooled _ n | dynamic n => Word.Exact2 n
  | interfaceCall n descriptor => Word.Exact2 n ∧
      ∀ d, MethodDescriptor.parse descriptor = .ok d → 1 + d.parameterSlots < 256
  | plain _ | slot .. | jump .. | mark _ | line _ => True

namespace StackMap

/-- Offsets from their distances, as a reader finds them. -/
def offsets : Option Nat → List Nat → List Nat
  | _, [] => []
  | none, pc :: rest => pc :: offsets (some pc) rest
  | some before, distance :: rest =>
    (before + distance + 1) :: offsets (some (before + distance + 1)) rest

/-- The numbers of a stack map are written as they are: its count, the distances of its frames,
which are taken from rising offsets, and the counts of types in full frames. -/
structure Exact (locals : List VerificationType) (frames : List PlacedStack) : Prop where
  count : Word.Exact2 frames.length
  rising : frames.Pairwise fun f g => f.1 < g.1
  distances : offsets none ((StackMap.distances none frames).map fun f =>
    Word.ofBytes (Word.bytes2 f.1)) = frames.map Prod.fst
  locals : Word.Exact2 locals.length
  stack : ∀ f ∈ frames, Word.Exact2 f.2.length

end StackMap

structure CodeParts.Exact (p : CodeParts) (b : MethodBody) (name : String) : Prop where
  code : Word.Exact4 p.code.length
  operands : ∀ k ∈ p.linked, k.Exact
  handlers : Word.Exact2 b.handlers.length
  /-- Offsets of labels stand in the exception table. -/
  labels (label : Label) (pc : Nat) (h : p.layout.offset name label = .ok pc) : Word.Exact2 pc
  /-- Offsets of instructions stand in the types of objects under construction. -/
  creations (place pc : Nat) (h : p.layout.offsetOf? place = some pc) : Word.Exact2 pc
  lines : Word.Exact2 p.layout.lineTable.length
  rows : ∀ row ∈ p.layout.lineTable, Word.Exact2 row.1 ∧ Word.Exact2 row.2
  frames : ∃ placed, b.frames.mapM (StackMap.place p.layout name) = .ok placed ∧
    StackMap.Exact b.locals (StackMap.arrange placed)
  attributes : Word.Exact2 p.attributes.length
  lengths (n : Nat) (body : List UInt8) (h : attributeBytes n body ∈ p.attributes) :
    Word.Exact4 body.length

def Constant.Exact : Constant → Prop
  | utf8 text => Word.Exact2 (ModifiedUtf8.encode text).length
  | integer _ => True
  | classRef i | string i | methodType i | methodHandle _ i => Word.Exact2 i
  | fieldRef i j | methodRef i j | interfaceMethodRef i j | nameAndType i j | invokeDynamic i j =>
    Word.Exact2 i ∧ Word.Exact2 j

structure ClassParts.Exact (p : ClassParts) (c : ClassFile) (l : Linker) : Prop where
  pool : Word.Exact2 l.pool.count
  constants : ∀ constant ∈ l.pool.table.toList, constant.Exact
  names : Word.Exact2 p.thisClass ∧ Word.Exact2 p.superClass
  methods : Word.Exact2 c.methods.length
  bodies : List.Forall₂ (fun m (q : MethodParts) => q.body.Exact m.body m.name ∧
    Word.Exact4 (q.body.bytes m.body).length) c.methods p.methods
  attributes : Word.Exact2 p.attributes.length
  lengths (n : Nat) (body : List UInt8) (h : attributeBytes n body ∈ p.attributes) :
    Word.Exact4 body.length
  innerClasses : Word.Exact2 c.innerClasses.length
  bootstraps : Word.Exact2 l.bootstraps.toList.length
  arguments : ∀ entry ∈ l.bootstraps.toList, Word.Exact2 entry.handle ∧
    Word.Exact2 entry.arguments.length ∧ ∀ n ∈ entry.arguments, Word.Exact2 n
  /-- A call site names the place of its bootstrap method in the table. -/
  indices : ∀ site ∈ c.callSites, ∃ n place j entry,
    l.pool.get? n = some (.invokeDynamic place j) ∧ l.bootstraps.toList[place]? = some entry ∧
      l.pool.IsBootstrap entry (site.bootstrap, site.arguments)

namespace StackMap

/-- Rising offsets are found again from their distances. -/
theorem offsets_distances {before : Option Nat} {frames : List PlacedStack}
    (hrising : frames.Pairwise fun f g => f.1 < g.1) (hsmall : ∀ f ∈ frames, f.1 < 65536)
    (hbefore : ∀ pc ∈ before, ∀ f ∈ frames, pc < f.1) :
    offsets before ((distances before frames).map fun f => Word.ofBytes (Word.bytes2 f.1)) =
      frames.map Prod.fst := by
  induction frames generalizing before with
  | nil => cases before <;> rfl
  | cons f frames ih =>
    obtain ⟨pc, stack⟩ := f
    obtain ⟨hfirst, hrising⟩ := List.pairwise_cons.1 hrising
    obtain ⟨hpc, hsmall⟩ := List.forall_mem_cons.1 hsmall
    dsimp only at hfirst hpc
    have hafter : ∀ earlier ∈ some pc, ∀ f ∈ frames, earlier < f.1 := by simpa using hfirst
    have hrest := ih hrising hsmall hafter
    cases before with
    | none =>
      simp only [distances, List.map_cons, offsets, Word.ofBytes_bytes2, Nat.mod_eq_of_lt hpc,
        List.cons.injEq, true_and]
      simpa only [Word.ofBytes_bytes2] using hrest
    | some earlier =>
      have hlt : earlier < pc := hbefore earlier rfl (pc, stack) List.mem_cons_self
      have hdistance : earlier + (pc - earlier - 1) % 65536 + 1 = pc := by omega
      simp only [distances, List.map_cons, offsets, Word.ofBytes_bytes2, hdistance,
        List.cons.injEq, true_and]
      simpa only [Word.ofBytes_bytes2] using hrest

end StackMap

namespace MethodBody

variable {b : MethodBody} {name : String} {l : Linker} {p : CodeParts}

/-- The tables that the code pays for are within the limits of the format. -/
theorem Affordable.bounds (h : b.Affordable) (a : b.Assembled name l p) :
    b.handlers.length ≤ 65535 ∧ b.frames.length ≤ 65535 ∧
      (b.frames.map fun f => StackMap.frameBound b.locals f.stack).sum ≤ 65535 * 60000 := by
  have hsize : leastSize b.instructions ≤ 65535 :=
    (Instruction.leastSize_le_codeSize a.links).trans a.size_le
  have hhandlers := h.handlers
  have hframes := h.frames
  refine ⟨by omega, by omega, ?_⟩
  have hsum : (b.frames.map fun f => StackMap.frameBound b.locals f.stack).sum =
      b.frames.length * (7 + 3 * b.locals.length) +
        3 * (b.frames.map fun f => f.stack.length).sum := by
    induction b.frames with
    | nil => simp
    | cons f frames ih =>
      rw [List.map_cons, List.sum_cons, ih, StackMap.frameBound, List.map_cons, List.sum_cons,
        List.length_cons]
      ring
  have htotal := h.total.trans (Nat.pow_le_pow_left hsize 2)
  have hlocals := Nat.mul_le_mul_left b.frames.length
    (Nat.add_le_add_left (Nat.mul_le_mul_left 3 h.locals) 7)
  omega

theorem Assembled.exists_placed (a : b.Assembled name l p) :
    ∃ placed, b.frames.mapM (StackMap.place p.layout name) = .ok placed := by
  rcases a.stackMap with ⟨hnone, -⟩ | ⟨-, n, body, -, ⟨placed, hplaced, -⟩, -⟩
  · exact ⟨[], by rw [not_not.1 hnone]; rfl⟩
  · exact ⟨placed, hplaced⟩

theorem Assembled.exact_frames (a : b.Assembled name l p) (h : b.Affordable)
    {placed : List StackMap.PlacedStack}
    (hplaced : b.frames.mapM (StackMap.place p.layout name) = .ok placed) :
    StackMap.Exact b.locals (StackMap.arrange placed) := by
  have hsize : leastSize b.instructions ≤ 65535 :=
    (Instruction.leastSize_le_codeSize a.links).trans a.size_le
  have hplaced := except_mapM_ok hplaced
  have hkept := StackMap.subperm_arrange placed
  have hframe (f : StackMap.PlacedStack) (hf : f ∈ StackMap.arrange placed) :
      f.1 < 65536 ∧ f.2.length < 65536 := by
    obtain ⟨frame, hframe, hf⟩ := exists_of_mem_right hplaced (hkept.subset hf)
    obtain ⟨pc, hpc, hf⟩ := except_bind_ok hf
    cases hf
    exact ⟨a.offset_lt hpc, Nat.lt_succ_of_le ((h.each frame hframe).trans hsize)⟩
  have hrising := StackMap.pairwise_arrange placed
  refine ⟨Word.exact2_iff.2 ?_, hrising, ?_, Word.exact2_iff.2 ?_, fun f hf => ?_⟩
  · exact Nat.lt_succ_of_le (hkept.length_le.trans (hplaced.length_eq ▸ (h.bounds a).2.1))
  · exact StackMap.offsets_distances hrising (fun f hf => (hframe f hf).1) (by simp)
  · exact h.locals.trans_lt (by decide)
  · exact Word.exact2_iff.2 (hframe f hf).2

theorem exact_of_linksTo {i : Instruction} {k : Linked} (h : i.LinksTo l.Denotes k)
    (hi : i.IsEmitted) : k.Exact := by
  cases i with
  | plain | slot | jump | mark | line =>
    cases h
    trivial
  | push op value =>
    cases h
    rintro rfl
    exact hi.elim (fun hi => hi.2) nofun
  | constant value =>
    obtain ⟨n, hn, rfl⟩ := h
    cases value with
    | string text =>
      obtain ⟨j, hj, -⟩ := hn
      exact ConstantPool.exact_of_get? hj
    | int value => exact ConstantPool.exact_of_get? hn
  | classRef op name =>
    obtain ⟨n, hn, rfl⟩ := h
    exact Word.exact2_iff.2 (ConstantPool.IsClass.lt hn)
  | field op member =>
    obtain ⟨n, hn, rfl⟩ := h
    exact Word.exact2_iff.2 (ConstantPool.IsMember.lt hn)
  | dynamic site =>
    obtain ⟨n, ⟨place, j, entry, hn, -⟩, rfl⟩ := h
    exact ConstantPool.exact_of_get? hn
  | invoke op member =>
    obtain ⟨rfl, n, hn, rfl⟩ | ⟨-, n, hn, rfl⟩ := h
    · refine ⟨Word.exact2_iff.2 (ConstantPool.IsMember.lt hn), fun d hd => ?_⟩
      obtain hi | hi | hi | ⟨-, hi⟩ := hi <;> first | cases hi | skip
      have := hi d hd
      omega
    · exact Word.exact2_iff.2 (ConstantPool.IsMember.lt hn)

theorem Assembled.exact (a : b.Assembled name l p) (h : b.Affordable)
    (hemitted : ∀ i ∈ b.instructions, i.IsEmitted) (hfits : p.Fits b name) : p.Exact b name := by
  have hlines := (Layout.length_lineTable_le p.linked).trans a.size_le
  obtain ⟨placed, hplaced⟩ := a.exists_placed
  have hone {name : String} {present : Prop} {Q : List UInt8 → Prop} {parts : List (List UInt8)}
      (h : l.IsAttribute name present Q parts) : parts.length ≤ 1 := by
    rcases h with ⟨-, rfl⟩ | ⟨-, n, body, -, -, rfl⟩ <;> simp
  refine ⟨Word.exact4_iff.2 ?_, ?_, Word.exact2_iff.2 ?_, ?_, ?_, Word.exact2_iff.2 ?_, ?_,
    ⟨placed, hplaced, a.exact_frames h hplaced⟩, Word.exact2_iff.2 ?_, ?_⟩
  · rw [Layout.length_code a.encodes]
    exact a.size_le.trans_lt (by decide)
  · intro k hk
    obtain ⟨i, hi, hlinks⟩ := exists_of_mem_right a.links hk
    exact exact_of_linksTo hlinks (hemitted i hi)
  · exact Nat.lt_succ_of_le (h.bounds a).1
  · intro label pc hpc
    exact Word.exact2_iff.2 (a.offset_lt hpc)
  · intro place pc hpc
    rw [CodeParts.layout, Layout.offsetOf?_ofList] at hpc
    obtain ⟨k, hk, rfl⟩ := Option.map_eq_some_iff.1 hpc
    have hle : codeSize (p.linked.take place) ≤ codeSize p.linked := by
      conv_rhs => rw [← List.take_append_drop place p.linked, codeSize_append]
      exact Nat.le_add_right _ _
    exact Word.exact2_iff.2 (Nat.lt_succ_of_le (hle.trans a.size_le))
  · exact Nat.lt_succ_of_le hlines
  · intro row hrow
    refine ⟨Word.exact2_iff.2 ?_, Word.exact2_iff.2 ?_⟩
    · exact ((Layout.mem_lineTable hrow).1.trans_le a.size_le).trans (by decide)
    · exact Nat.lt_succ_of_le (Layout.number_le_of_mem_lineTable a.encodes hrow)
  · have := hone a.lines
    have := hone a.stackMap
    rw [CodeParts.attributes, List.length_append]
    omega
  · intro n body hbody
    exact Word.exact4_iff.2 (length_of_isShort (hfits.attributes _ hbody))

end MethodBody

/-- Methods with different names are not more than the constants of a class. -/
theorem ClassFile.Assembled.length_methods_le {c : ClassFile} {l : Linker} {p : ClassParts}
    (a : c.Assembled l p) (hnames : (c.methods.map Method.name).Nodup) :
    c.methods.length ≤ 65535 := by
  have hnumbers : List.Forall₂ (fun m (q : MethodParts) => l.pool.IsText q.name m.name) c.methods
      p.methods := a.methods.imp fun m q hm => hm.name
  have hnodup : (p.methods.map MethodParts.name).Nodup := by
    generalize p.methods = parts at hnumbers
    generalize c.methods = methods at hnumbers hnames
    induction hnumbers with
    | nil => exact List.nodup_nil
    | @cons m q methods parts hfirst hrest ih =>
      obtain ⟨hnew, hnames⟩ := List.nodup_cons.1 hnames
      refine List.nodup_cons.2 ⟨fun hmem => hnew ?_, ih hnames⟩
      obtain ⟨q', hq', hsame⟩ := List.mem_map.1 hmem
      obtain ⟨m', hm', hname⟩ := exists_of_mem_right hrest hq'
      rw [hsame] at hname
      exact List.mem_map.2 ⟨m', hm', hname.inj hfirst⟩
  have hsubset : p.methods.map MethodParts.name ⊆ List.range' 1 65535 := by
    intro n hn
    obtain ⟨q, hq, rfl⟩ := List.mem_map.1 hn
    obtain ⟨m, -, hname⟩ := exists_of_mem_right hnumbers hq
    have := ConstantPool.lt_of_get? hname
    rw [List.mem_range'_1]
    omega
  have hlength := (hnodup.subperm hsubset).length_le
  rwa [List.length_map, List.length_range', ← hnumbers.length_eq] at hlength

theorem Constant.Fits.exact {c : Constant} (h : c.Fits) : c.Exact := by
  cases c with
  | utf8 text =>
    refine Word.exact2_iff.2 ?_
    rw [ModifiedUtf8.length_encode]
    exact Nat.lt_succ_of_le h
  | integer => trivial
  | classRef | string | methodType | methodHandle => exact Word.exact2_iff.2 h
  | fieldRef | methodRef | interfaceMethodRef | nameAndType | invokeDynamic =>
    exact ⟨Word.exact2_iff.2 h.1, Word.exact2_iff.2 h.2⟩

theorem ClassFile.bootstraps_eq (c : ClassFile) :
    c.bootstraps = c.callSites.map fun site => (site.bootstrap, site.arguments) := by
  rw [bootstraps, callSites, List.map_filterMap]
  congr 1
  funext i
  cases i <;> rfl

/-- What a class has that the classes of a compiled unit have. -/
structure ClassFile.Moderate (c : ClassFile) : Prop where
  methods : (c.methods.map Method.name).Nodup
  bodies : ∀ m ∈ c.methods, m.body.Affordable ∧ ∀ i ∈ m.body.instructions, i.IsEmitted
  innerClasses : c.innerClasses.length ≤ 1
  /-- Each call site makes an object of a method of the class. -/
  callSites : c.callSites.length ≤ c.methods.length
  arguments : ∀ site ∈ c.callSites, site.arguments.length ≤ 3

theorem ClassFile.Moderate.length_arguments_le {c : ClassFile} (h : c.Moderate)
    {x : MethodHandle × List BootstrapArgument} (hx : x ∈ c.bootstraps) : x.2.length ≤ 3 := by
  rw [bootstraps_eq] at hx
  obtain ⟨site, hsite, rfl⟩ := List.mem_map.1 hx
  exact h.arguments site hsite

namespace ClassFile.Assembled

variable {c : ClassFile} {l : Linker} {p : ClassParts} (a : c.Assembled l p)
  (hl : l.Holds c.instructions) (h : c.Moderate)

include a hl h

theorem bounds : c.methods.length ≤ 65535 ∧ c.bootstraps.toFinset.card ≤ 65535 ∧ p.Fits c := by
  have hmethods := a.length_methods_le h.methods
  have hbootstraps : c.bootstraps.toFinset.card ≤ 65535 := by
    refine (List.toFinset_card_le _).trans ?_
    rw [bootstraps_eq, List.length_map]
    exact h.callSites.trans hmethods
  refine ⟨hmethods, hbootstraps, a.fits hl (fun m hm => ?_) (h.innerClasses.trans (by decide))
    hbootstraps fun x hx => (h.length_arguments_le hx).trans (by decide)⟩
  obtain ⟨q, -, hassembled⟩ := exists_of_mem_left a.methods hm
  exact (h.bodies m hm).1.bounds hassembled.body

/-- A moderate class is read back. -/
theorem exists_summary : ∃ s, Summary.parse (p.bytes c l) = .ok s ∧ c.IsReadAs l s := by
  obtain ⟨hmethods, hbootstraps, hfits⟩ := a.bounds hl h
  have hhandlers (m : Method) (hm : m ∈ c.methods) : m.body.handlers.length ≤ 65535 := by
    obtain ⟨q, -, hassembled⟩ := exists_of_mem_left a.methods hm
    exact ((h.bodies m hm).1.bounds hassembled.body).1
  obtain ⟨s, hs, hread⟩ := a.reads hl hmethods hhandlers hbootstraps hfits
  have hparse := Reader.within_of_reads hs []
  rw [List.append_nil] at hparse
  exact ⟨s, hparse, hread⟩

theorem exact_bodies : List.Forall₂ (fun m (q : MethodParts) => q.body.Exact m.body m.name ∧
    Word.Exact4 (q.body.bytes m.body).length) c.methods p.methods := by
  have hfits := (a.bounds hl h).2.2.methods
  have hbodies := h.bodies
  have hall := a.methods
  generalize p.methods = parts at hfits hall
  generalize c.methods = methods at hfits hall hbodies
  induction hall with
  | nil => exact .nil
  | cons hfirst hrest ih =>
    obtain ⟨⟨hbody, hlength⟩, hfits⟩ := List.forall₂_cons.1 hfits
    obtain ⟨⟨haffordable, hemitted⟩, hbodies⟩ := List.forall_mem_cons.1 hbodies
    exact .cons ⟨hfirst.body.exact haffordable hemitted hbody, Word.exact4_iff.2 hlength⟩
      (ih hfits hbodies)

/-- The call sites of a class name the places of their bootstrap methods. -/
theorem exact_indices (site : CallSite) (hsite : site ∈ c.callSites) : ∃ n place j entry,
    l.pool.get? n = some (.invokeDynamic place j) ∧ l.bootstraps.toList[place]? = some entry ∧
      l.pool.IsBootstrap entry (site.bootstrap, site.arguments) := by
  obtain ⟨i, hi, hsite⟩ := List.mem_filterMap.1 hsite
  obtain rfl : i = .dynamic site := by
    cases i <;> cases hsite
    rfl
  obtain ⟨m, hm, hi⟩ := List.mem_flatMap.1 hi
  obtain ⟨q, -, hassembled⟩ := exists_of_mem_left a.methods hm
  obtain ⟨k, -, n, ⟨place, j, entry, hn, -, hentry, hbootstrap⟩, -⟩ :=
    exists_of_mem_left hassembled.body.links hi
  have hplace : place < 65536 := by
    have hlt := (List.getElem?_eq_some_iff.1 hentry).1
    rw [length_bootstraps hl] at hlt
    have := (a.bounds hl h).2.1
    omega
  rw [Nat.mod_eq_of_lt hplace] at hn
  exact ⟨n, place, j, entry, hn, hentry, hbootstrap⟩

/-- Every number of a moderate class is written exactly. -/
theorem exact : p.Exact c l := by
  obtain ⟨hmethods, hbootstraps, hfits⟩ := a.bounds hl h
  have hattributes := a.reads_attributes hl hbootstraps hfits
  refine ⟨Word.exact2_iff.2 ?_, fun constant hc => (hl.pool.fits constant hc).exact,
    ⟨Word.exact2_iff.2 a.thisClass.lt, Word.exact2_iff.2 a.superClass.lt⟩,
    Word.exact2_iff.2 (Nat.lt_succ_of_le hmethods), a.exact_bodies hl h, Word.exact2_iff.2 ?_,
    fun n body hbody => Word.exact4_iff.2 (length_of_isShort (hfits.attributes _ hbody)),
    Word.exact2_iff.2 (h.innerClasses.trans_lt (by decide)), Word.exact2_iff.2 ?_, ?_,
    a.exact_indices hl h⟩
  · have := l.pool.size_lt
    rw [ConstantPool.count]
    omega
  · rw [hattributes.length_eq]
    exact c.length_attributeRows_le.trans_lt (by decide)
  · rw [length_bootstraps hl]
    exact Nat.lt_succ_of_le hbootstraps
  · intro entry hentry
    obtain ⟨x, hx, ⟨j, hhandle, -⟩, harguments⟩ := exists_of_mem_left hl.bootstraps hentry
    have hlength : x.2.length ≤ 3 := h.length_arguments_le (List.mem_eraseDups.1 hx)
    refine ⟨ConstantPool.exact_of_get? hhandle, Word.exact2_iff.2 ?_, fun n hn => ?_⟩
    · rw [harguments.length_eq]
      exact hlength.trans_lt (by decide)
    · obtain ⟨argument, -, hargument⟩ := exists_of_mem_left harguments hn
      cases argument <;> obtain ⟨j, hj, -⟩ := hargument <;> exact ConstantPool.exact_of_get? hj

end ClassFile.Assembled

/-- The bytes of a unit's classes are those of their files. -/
theorem compileUnit_assembles {settings : Settings} {unit : UnitName} {script : Script}
    {u : CompiledUnit} (h : compileUnit settings unit script = .ok u) :
    (∀ c ∈ u.classes, c.file.bytes = .ok c.bytes) ∧
      ∃ g, primaryClass ⟨settings, unit⟩ g = .ok u.primary.file := by
  obtain ⟨g, -, h⟩ := except_bind_ok h
  obtain ⟨file, hfile, h⟩ := except_bind_ok h
  obtain ⟨primary, hprimary, h⟩ := except_bind_ok h
  obtain ⟨markers, hmarkers, h⟩ := except_bind_ok h
  cases h
  obtain ⟨rfl, hbytes⟩ := CompiledClass.file_of_assemble hprimary
  refine ⟨List.forall_mem_append.2 ⟨fun c hc => ?_, List.forall_mem_singleton.2 hbytes⟩, g, hfile⟩
  obtain ⟨marker, -, hassemble⟩ := exists_of_mem_right (except_mapM_ok hmarkers) hc
  obtain ⟨rfl, hbytes⟩ := CompiledClass.file_of_assemble hassemble
  exact hbytes

theorem markerClass_shape {env : Env} {name : String} {span : Span} {file : ClassFile}
    (h : markerClass env name span = .ok file) :
    file.methods.length = 1 ∧ file.innerClasses = [] := by
  unfold markerClass at h
  split at h
  · cases h
  · cases h
    exact ⟨rfl, rfl⟩

section

variable {settings : Settings} {unit : UnitName} {script : Script} {u : CompiledUnit}
  {c : CompiledClass}

theorem moderate_primary (h : compileUnit settings unit script = .ok u) :
    u.primary.file.Moderate := by
  obtain ⟨g, fixed, hu⟩ := compileUnit_consists h
  obtain ⟨-, generated, hfile⟩ := compileUnit_assembles h
  obtain ⟨methods, -, hfile⟩ := except_bind_ok hfile
  have hbodies (m : Method) (hm : m ∈ u.primary.file.methods) :=
    hu.develops (List.mem_append_right _ (List.mem_singleton_self _)) hm
  refine ⟨hu.methods_nodup, fun m hm => ⟨(hbodies m hm).affordable, (hbodies m hm).isEmitted⟩, ?_,
    ?_, fun site hsite => ?_⟩
  · rw [← Except.ok.inj hfile]
    exact Nat.le_refl 1
  · rw [hu.callSites_primary.length_eq, List.length_map, hu.methods]
    simp only [List.length_append, List.length_cons]
    omega
  · obtain ⟨m, -, rfl⟩ := List.mem_map.1 (hu.callSites_primary.mem_iff.1 hsite)
    exact Nat.le_refl 3

theorem moderate_marker (h : compileUnit settings unit script = .ok u) (hc : c ∈ u.markers) :
    c.file.Moderate := by
  obtain ⟨g, fixed, hu⟩ := compileUnit_consists h
  obtain ⟨name, span, hmarker⟩ := hu.exists_markerClass hc
  obtain ⟨hone, hinner⟩ := markerClass_shape hmarker
  have hbodies (m : Method) (hm : m ∈ c.file.methods) :=
    hu.develops (List.mem_append_left _ hc) hm
  have hnone := hu.callSites_markers hc
  refine ⟨?_, fun m hm => ⟨(hbodies m hm).affordable, (hbodies m hm).isEmitted⟩, by simp [hinner],
    by simp [hnone], by simp [hnone]⟩
  obtain ⟨m, hm⟩ := List.length_eq_one_iff.1 hone
  rw [hm]
  exact List.nodup_singleton _

/-- Every class of a compiled unit is moderate. -/
theorem moderate_of_compileUnit (h : compileUnit settings unit script = .ok u)
    (hc : c ∈ u.classes) : c.file.Moderate := by
  rcases List.mem_append.1 hc with hc | hc
  · exact moderate_marker h hc
  · rw [List.mem_singleton.1 hc]
    exact moderate_primary h

/-- Every class of a compiled unit is written from its parts. -/
theorem exists_assembled (h : compileUnit settings unit script = .ok u) (hc : c ∈ u.classes) :
    ∃ p l, c.file.parts {} = .ok p l ∧ c.bytes = p.bytes c.file l ∧
      l.Holds c.file.instructions ∧ c.file.Assembled l p := by
  obtain ⟨p, l, hparts, hbytes⟩ := ClassFile.exists_parts ((compileUnit_assembles h).1 c hc)
  exact ⟨p, l, hparts, hbytes, ClassFile.assembled_parts hparts⟩

end

/-- Nothing is truncated when the classes of a compiled unit are written: every number that goes
into two or four bytes is read back from them as it is. -/
theorem compileUnit_writes_exactly {settings : Settings} {unit : UnitName} {script : Script}
    {u : CompiledUnit} (h : compileUnit settings unit script = .ok u) :
    ∀ c ∈ u.classes, ∃ p l, c.file.parts {} = .ok p l ∧ c.bytes = p.bytes c.file l ∧
      p.Exact c.file l := by
  intro c hc
  obtain ⟨p, l, hparts, hbytes, hl, ha⟩ := exists_assembled h hc
  exact ⟨p, l, hparts, hbytes, ha.exact hl (moderate_of_compileUnit h hc)⟩

theorem written_exactly_of_sample : ∃ u, compileUnit {} Sample.unit Sample.script = .ok u ∧
    ∀ c ∈ u.classes, ∃ p l, c.file.parts {} = .ok p l ∧ c.bytes = p.bytes c.file l ∧
      p.Exact c.file l := by
  obtain ⟨u, hu⟩ := Sample.compiles
  exact ⟨u, hu, compileUnit_writes_exactly hu⟩

end SmalltalkJvm
