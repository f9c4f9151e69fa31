import Mathlib.Data.Finset.Card
import Mathlib.Data.List.Sort
import SmalltalkJvm.Proofs.Assembly
import SmalltalkJvm.Proofs.Limits

/-! # Class files that are read back

Reading a written class gives back what was written: its names and access bits, its methods with
their code, exception tables, lines and numbers of frames, and the texts that its code loads. The
counts and lengths that a class file can hold are the only conditions.
-/

namespace SmalltalkJvm

namespace Layout

theorem mem_noteLine {lines : List (Nat × Nat)} {entry : Nat × Linked} {x : Nat × Nat}
    (h : x ∈ noteLine lines entry) : x ∈ lines ∨ entry = (x.1, .line x.2) := by
  unfold noteLine at h
  split at h
  · split at h
    · split_ifs at h
      · exact (List.mem_cons.1 h).elim (fun h => .inr (by rw [h])) fun h => .inl (.tail _ h)
      · exact (List.mem_cons.1 h).elim (fun h => .inr (by rw [h])) .inl
    · exact .inr (by rw [List.mem_singleton.1 h])
  · exact .inl h

theorem mem_foldl_noteLine {lines : List (Nat × Nat)} {entries : List (Nat × Linked)}
    {x : Nat × Nat} (h : x ∈ entries.foldl noteLine lines) :
    x ∈ lines ∨ (x.1, .line x.2) ∈ entries := by
  induction entries generalizing lines with
  | nil => exact .inl h
  | cons entry entries ih =>
    rcases ih h with h | h
    · rcases mem_noteLine h with h | rfl
      · exact .inl h
      · exact .inr List.mem_cons_self
    · exact .inr (.tail _ h)

/-- Of two lines that are noted the later one has the larger offset. -/
theorem pairwise_foldl_noteLine {pc : Nat} {code : List Linked} {lines : List (Nat × Nat)}
    (hle : ∀ x ∈ lines, x.1 ≤ pc) (h : lines.Pairwise fun x y => y.1 < x.1) :
    ((withOffsets pc code).foldl noteLine lines).Pairwise fun x y => y.1 < x.1 := by
  induction code generalizing pc lines with
  | nil => exact h
  | cons i code ih =>
    have hnext : ∀ x ∈ noteLine lines (pc, i), x.1 ≤ pc + i.size := by
      intro x hx
      rcases mem_noteLine hx with hx | hx
      · exact (hle x hx).trans (Nat.le_add_right _ _)
      · exact (Prod.mk.inj hx).1 ▸ Nat.le_add_right _ _
    refine ih hnext ?_
    cases i with
    | line number =>
      cases lines with
      | nil => exact List.pairwise_singleton _ _
      | cons opened rest =>
        obtain ⟨hopened, hrest⟩ := List.pairwise_cons.1 h
        have hpc := hle opened List.mem_cons_self
        simp only [noteLine]
        split_ifs with hsame
        · exact List.pairwise_cons.2 ⟨fun x hx => hsame ▸ hopened x hx, hrest⟩
        · refine List.pairwise_cons.2 ⟨fun x hx => ?_, h⟩
          rcases List.mem_cons.1 hx with rfl | hx
          · exact Nat.lt_of_le_of_ne hpc hsame
          · exact (hopened x hx).trans_le hpc
    | _ => exact h

section

variable {code : List Linked}

theorem mem_lineTable {x : Nat × Nat} (h : x ∈ (ofList code).lineTable) :
    x.1 < codeSize code ∧ (x.1, .line x.2) ∈ withOffsets 0 code := by
  rw [lineTable, List.mem_filter, List.mem_reverse, placed_ofList, size_ofList,
    decide_eq_true_eq] at h
  refine ⟨h.2, (mem_foldl_noteLine h.1).resolve_left ?_⟩
  simp

/-- The rows of a table start at rising offsets. -/
theorem pairwise_lineTable (code : List Linked) :
    (ofList code).lineTable.Pairwise fun x y => x.1 < y.1 := by
  have hpairwise : ((withOffsets 0 code).foldl noteLine []).Pairwise fun x y => y.1 < x.1 :=
    pairwise_foldl_noteLine (by simp) .nil
  rw [lineTable, placed_ofList]
  exact (List.pairwise_reverse.2 hpairwise).filter _

/-- No two lines of a table start at one offset, so they are not more than the bytes. -/
theorem length_lineTable_le (code : List Linked) :
    (ofList code).lineTable.length ≤ codeSize code := by
  have hnodup : ((ofList code).lineTable.map Prod.fst).Nodup := by
    rw [List.Nodup, List.pairwise_map]
    exact (pairwise_lineTable code).imp fun h => Nat.ne_of_lt h
  have hsubset : (ofList code).lineTable.map Prod.fst ⊆ List.range (codeSize code) := by
    intro pc hpc
    obtain ⟨x, hx, rfl⟩ := List.mem_map.1 hpc
    exact List.mem_range.2 (mem_lineTable hx).1
  have hlength := (hnodup.subperm hsubset).length_le
  rwa [List.length_map, List.length_range] at hlength

/-- A line that is too large for the table is refused when the code is written. -/
theorem number_le_of_mem_withOffsets {method : String} {bytes : List UInt8}
    (hcode : (ofList code).code method = .ok bytes) {pc number : Nat}
    (h : (pc, .line number) ∈ withOffsets 0 code) : number ≤ 65535 := by
  obtain ⟨parts, hparts, -⟩ := code_ok hcode
  obtain ⟨part, -, hpart⟩ := exists_of_mem_left hparts h
  simp only [Linked.bytes] at hpart
  split_ifs at hpart with hle
  exact hle

theorem number_le_of_mem_lineTable {method : String} {bytes : List UInt8}
    (hcode : (ofList code).code method = .ok bytes) {x : Nat × Nat}
    (h : x ∈ (ofList code).lineTable) : x.2 ≤ 65535 :=
  number_le_of_mem_withOffsets hcode (mem_lineTable h).2

end

end Layout

namespace StackMap

/-- Frames by rising offset, one for each offset. -/
theorem foldl_addDistinct {frames kept : List PlacedStack}
    (hframes : frames.Pairwise fun f g => f.1 ≤ g.1) (hkept : kept.Pairwise fun f g => g.1 < f.1)
    (hle : ∀ f ∈ kept, ∀ g ∈ frames, f.1 ≤ g.1) :
    (frames.foldl addDistinct kept).Pairwise (fun f g => g.1 < f.1) ∧
      ∀ pc, pc ∈ (frames.foldl addDistinct kept).map Prod.fst ↔
        pc ∈ kept.map Prod.fst ∨ pc ∈ frames.map Prod.fst := by
  induction frames generalizing kept with
  | nil => exact ⟨hkept, by simp⟩
  | cons f frames ih =>
    obtain ⟨hfirst, hframes⟩ := List.pairwise_cons.1 hframes
    have hrest (g : PlacedStack) (hg : g ∈ kept) (k : PlacedStack) (hk : k ∈ frames) : g.1 ≤ k.1 :=
      hle g hg k (.tail _ hk)
    rw [List.foldl_cons]
    cases kept with
    | nil =>
      obtain ⟨hpairwise, hmem⟩ := ih hframes (List.pairwise_singleton _ f) (by simpa using hfirst)
      exact ⟨hpairwise, fun pc => by rw [addDistinct, hmem]; simp⟩
    | cons g kept =>
      have hgf := hle g List.mem_cons_self f List.mem_cons_self
      by_cases hsame : g.1 = f.1
      · obtain ⟨hpairwise, hmem⟩ := ih hframes hkept hrest
        rw [addDistinct, if_pos hsame]
        exact ⟨hpairwise, fun pc => by rw [hmem]; simp [hsame]; tauto⟩
      · have hlast : ∀ x ∈ g :: kept, x.1 < f.1 := by
          intro x hx
          rcases List.mem_cons.1 hx with rfl | hx
          · exact Nat.lt_of_le_of_ne hgf hsame
          · exact ((List.pairwise_cons.1 hkept).1 x hx).trans_le hgf
        obtain ⟨hpairwise, hmem⟩ := ih hframes (List.pairwise_cons.2 ⟨hlast, hkept⟩)
          fun x hx k hk =>
            (List.mem_cons.1 hx).elim (fun h => h ▸ hfirst k hk) fun hx => hrest x hx k hk
        rw [addDistinct, if_neg hsame]
        exact ⟨hpairwise, fun pc => by rw [hmem]; simp; tauto⟩

theorem pairwise_mergeSort (frames : List PlacedStack) :
    (frames.mergeSort fun f g => f.1 ≤ g.1).Pairwise fun f g => f.1 ≤ g.1 := by
  have htrans (f g h : PlacedStack) : decide (f.1 ≤ g.1) = true → decide (g.1 ≤ h.1) = true →
      decide (f.1 ≤ h.1) = true := by
    simpa using Nat.le_trans
  have htotal (f g : PlacedStack) : (decide (f.1 ≤ g.1) || decide (g.1 ≤ f.1)) = true := by
    simpa using Nat.le_total f.1 g.1
  simpa using List.pairwise_mergeSort htrans htotal frames

/-- The frames of a table stand by rising offset. -/
theorem pairwise_arrange (frames : List PlacedStack) :
    (arrange frames).Pairwise fun f g => f.1 < g.1 :=
  List.pairwise_reverse.2 (foldl_addDistinct (pairwise_mergeSort frames) .nil (by simp)).1

/-- There are as many frames in a table as there are offsets that have one. -/
theorem length_arrange (frames : List PlacedStack) :
    (arrange frames).length = (frames.map Prod.fst).toFinset.card := by
  obtain ⟨-, hmem⟩ := foldl_addDistinct (pairwise_mergeSort frames) .nil (by simp)
  have hnodup : ((arrange frames).map Prod.fst).Nodup := by
    rw [List.Nodup, List.pairwise_map]
    exact (pairwise_arrange frames).imp fun h => Nat.ne_of_lt h
  have hsame : ((arrange frames).map Prod.fst).toFinset = (frames.map Prod.fst).toFinset := by
    ext pc
    have hperm := (List.mergeSort_perm frames fun f g => f.1 ≤ g.1).map Prod.fst
    rw [List.mem_toFinset, List.mem_toFinset, ← hperm.mem_iff, arrange, List.map_reverse,
      List.mem_reverse, hmem]
    simp
  rw [← hsame, List.toFinset_card_of_nodup hnodup, List.length_map]

end StackMap

namespace Reader

variable {p : ConstantPool}

theorem reads_namedBlock {n : Nat} {name : String} {body : List UInt8} (hn : p.IsText n name)
    (hbody : body.length < 4294967296) :
    (namedBlock p.entries).Reads (attributeBytes n body) (name, body) := by
  rw [attributeBytes, List.append_assoc]
  exact (reads_u16 hn.lt).bind (.known (ConstantPool.utf8_entries hn)
    ((reads_block hbody).andReturn _))

/-- The class that a row catches, and what is read after it; the number 0 stands for every
exception. -/
theorem reads_caught {β : Type} {caught : Nat} {catches : Option String}
    (h : match catches with
      | some name => p.IsClass caught name
      | none => caught = 0)
    {f : Option String → Reader β} {bytes : List UInt8} {b : β} (hf : (f catches).Reads bytes b) :
    caught < 65536 ∧ (if caught = 0 then pure none >>= f
      else some <$> (liftM (p.entries.className caught) : Reader String) >>= f).Reads bytes b := by
  cases catches with
  | none =>
    subst h
    exact ⟨by decide, (reads_pure none).bind hf⟩
  | some name =>
    obtain ⟨j, hj, -⟩ := id h
    have hpos : caught ≠ 0 := Nat.pos_iff_ne_zero.1 (ConstantPool.lt_of_get? hj).1
    rw [if_neg hpos]
    exact ⟨h.lt, ((reads_known (ConstantPool.className_entries h)).map some).bind hf⟩

theorem reads_exceptionRow {start stop handler caught : Nat} {catches : Option String}
    (hstart : start < 65536) (hstop : stop < 65536) (hhandler : handler < 65536)
    (hcaught : match catches with
      | some name => p.IsClass caught name
      | none => caught = 0) :
    (exceptionRow p.entries).Reads (Word.bytes2 start ++ Word.bytes2 stop ++ Word.bytes2 handler ++
      Word.bytes2 caught) ⟨start, stop, handler, catches⟩ := by
  obtain ⟨hnumber, hclass⟩ := reads_caught hcaught
    (f := fun catches => pure (⟨start, stop, handler, catches⟩ : ExceptionRow)) (reads_pure _)
  rw [List.append_assoc, List.append_assoc, ← List.append_nil (Word.bytes2 caught)]
  exact (reads_u16 hstart).bind ((reads_u16 hstop).bind ((reads_u16 hhandler).bind
    ((reads_u16 hnumber).bind hclass)))

theorem reads_lineRow {x : Nat × Nat} (hstart : x.1 < 65536) (hnumber : x.2 < 65536) :
    lineRow.Reads (Word.bytes2 x.1 ++ Word.bytes2 x.2) x :=
  (reads_u16 hstart).bind ((reads_u16 hnumber).andReturn fun number => (x.1, number))

theorem reads_lineRows {lines : List (Nat × Nat)} (hlength : lines.length < 65536)
    (hlines : ∀ x ∈ lines, x.1 < 65536 ∧ x.2 < 65536) :
    (counted lineRow).Reads (Word.bytes2 lines.length ++ lines.flatMap fun (start, number) =>
      Word.bytes2 start ++ Word.bytes2 number) lines := by
  have hrows : List.Forall₂ lineRow.Reads
      (lines.map fun x => Word.bytes2 x.1 ++ Word.bytes2 x.2) lines :=
    List.forall₂_map_left_iff.2 (List.forall₂_same.2 fun x hx =>
      reads_lineRow (hlines x hx).1 (hlines x hx).2)
  exact reads_counted hrows rfl hlength

theorem reads_lineAttribute {n : Nat} {lines : List (Nat × Nat)}
    (hn : p.IsText n "LineNumberTable") (hlength : lines.length < 65536)
    (hlines : ∀ x ∈ lines, x.1 < 65536 ∧ x.2 < 65536) :
    (codeAttribute p.entries).Reads (attributeBytes n (Word.bytes2 lines.length ++
      lines.flatMap fun (start, number) => Word.bytes2 start ++ Word.bytes2 number))
      ("LineNumberTable", lines, none) := by
  have hsize : (Word.bytes2 lines.length ++ lines.flatMap fun (start, number) =>
      Word.bytes2 start ++ Word.bytes2 number).length < 4294967296 := by
    simp [List.length_flatMap]
    omega
  have hwithin := within_of_reads (reads_lineRows hlength hlines) []
  rw [List.append_nil] at hwithin
  rw [← List.append_nil (attributeBytes n _)]
  refine (reads_namedBlock hn hsize).bind ?_
  dsimp only
  rw [if_pos rfl]
  exact .known hwithin (reads_pure _)

theorem reads_stackMapAttribute {n frames : Nat} {rest : List UInt8}
    (hn : p.IsText n "StackMapTable") (hframes : frames < 65536)
    (hlength : (Word.bytes2 frames ++ rest).length < 4294967296) :
    (codeAttribute p.entries).Reads (attributeBytes n (Word.bytes2 frames ++ rest))
      ("StackMapTable", [], some frames) := by
  have hblock := reads_namedBlock hn hlength
  have hwithin := within_of_reads (reads_u16 hframes) rest
  rw [← List.append_nil (attributeBytes n _)]
  refine hblock.bind ?_
  dsimp only
  rw [if_neg (by decide), if_pos rfl]
  exact .known hwithin (reads_pure _)

end Reader

/-- The length of an attribute's body has 32 bits, after six bytes for its name and that length. -/
def IsShort (bytes : List UInt8) : Prop := bytes.length < 6 + 4294967296

theorem length_of_isShort {n : Nat} {body : List UInt8} (h : IsShort (attributeBytes n body)) :
    body.length < 4294967296 := by
  simp [IsShort, attributeBytes] at h
  omega

structure ExceptionEntry.IsReadAs (layout : Layout) (method : String) (e : ExceptionEntry)
    (row : ExceptionRow) : Prop where
  start : layout.offset method e.start = .ok row.start
  stop : layout.offset method e.stop = .ok row.stop
  handler : layout.offset method e.handler = .ok row.handler
  catches : row.catches = e.catches

structure MethodBody.IsReadAs (b : MethodBody) (name : String) (layout : Layout)
    (s : CodeSummary) : Prop where
  maxStack : s.maxStack = b.maxStack.toNat
  maxLocals : s.maxLocals = b.maxLocals.toNat
  code : layout.code name = .ok s.code
  exceptions : List.Forall₂ (ExceptionEntry.IsReadAs layout name) b.handlers
    s.exceptions
  attributes : s.attributes =
    (if layout.lineTable = [] then [] else ["LineNumberTable"]) ++
      if b.frames = [] then [] else ["StackMapTable"]
  lines : s.lines = layout.lineTable
  frames : ∃ offsets, List.Forall₂
    (fun f pc => layout.offset name f.label = .ok pc) b.frames offsets ∧
      s.frames = offsets.toFinset.card

/-- A code attribute that a class file can hold has at most 65535 frames, and its own attributes
have bodies whose lengths are numbers of 32 bits. -/
structure CodeParts.Fits (p : CodeParts) (b : MethodBody) (name : String) : Prop where
  frames : ∀ offsets, List.Forall₂ (fun f pc => p.layout.offset name f.label = .ok pc) b.frames
    offsets → offsets.toFinset.card ≤ 65535
  attributes : ∀ bytes ∈ p.attributes, IsShort bytes

namespace MethodBody.Assembled

variable {b : MethodBody} {name : String} {l : Linker} {p : CodeParts}

theorem offset_lt (a : b.Assembled name l p) {label : Label} {pc : Nat}
    (h : p.layout.offset name label = .ok pc) : pc < 65536 :=
  Nat.lt_succ_of_le ((Layout.offset_le h).trans a.size_le)

theorem reads_rows (a : b.Assembled name l p) :
    ∃ rows, List.Forall₂ (Reader.exceptionRow l.pool.entries).Reads p.rows rows ∧
      List.Forall₂ (ExceptionEntry.IsReadAs p.layout name) b.handlers rows := by
  have hread (e : ExceptionEntry) (bytes : List UInt8)
      (h : e.IsRow p.layout name l bytes) : ∃ row,
        (Reader.exceptionRow l.pool.entries).Reads bytes row ∧
          e.IsReadAs p.layout name row := by
    obtain ⟨start, stop, handler, caught, hstart, hstop, hhandler, hcaught, rfl⟩ := h
    exact ⟨_, Reader.reads_exceptionRow (a.offset_lt hstart) (a.offset_lt hstop)
      (a.offset_lt hhandler) hcaught, hstart, hstop, hhandler, rfl⟩
  have hall := a.handlers
  generalize p.rows = parts at hall
  generalize b.handlers = handlers at hall
  induction hall with
  | nil => exact ⟨[], .nil, .nil⟩
  | cons hfirst _ ih =>
    obtain ⟨row, hrow, hentry⟩ := hread _ _ hfirst
    obtain ⟨rows, hrows, hentries⟩ := ih
    exact ⟨row :: rows, .cons hrow hrows, .cons hentry hentries⟩

theorem reads_lines (a : b.Assembled name l p) :
    List.Forall₂ (Reader.codeAttribute l.pool.entries).Reads p.lines
      (if p.layout.lineTable = [] then []
        else [("LineNumberTable", p.layout.lineTable, none)]) := by
  have hlines (x : Nat × Nat) (hx : x ∈ p.layout.lineTable) :
      x.1 < 65536 ∧ x.2 < 65536 :=
    ⟨((Layout.mem_lineTable hx).1.trans_le a.size_le).trans (by decide),
      Nat.lt_succ_of_le (Layout.number_le_of_mem_lineTable a.encodes hx)⟩
  have hlength := Nat.lt_succ_of_le ((Layout.length_lineTable_le p.linked).trans a.size_le)
  rcases a.lines with ⟨hnone, hparts⟩ | ⟨hsome, n, body, hn, rfl, hparts⟩
  · rw [hparts, if_pos (not_not.1 hnone)]
    exact .nil
  · rw [hparts, if_neg hsome]
    exact .cons (Reader.reads_lineAttribute hn hlength hlines) .nil

theorem reads_stackMap (a : b.Assembled name l p) (hfits : p.Fits b name) :
    ∃ offsets, List.Forall₂ (fun f pc => p.layout.offset name f.label = .ok pc)
        b.frames offsets ∧
      List.Forall₂ (Reader.codeAttribute l.pool.entries).Reads p.stackMap
        (if b.frames = [] then [] else [("StackMapTable", [], some offsets.toFinset.card)]) := by
  rcases a.stackMap with ⟨hnone, hparts⟩ | ⟨hsome, n, body, hn,
    ⟨placed, hplaced, parts, -, rfl⟩, hparts⟩
  · rw [not_not] at hnone
    rw [hnone, hparts]
    exact ⟨[], .nil, by rw [if_pos rfl]; exact .nil⟩
  · have hoffsets : List.Forall₂ (fun f pc => p.layout.offset name f.label = .ok pc)
        b.frames (placed.map Prod.fst) := by
      rw [List.forall₂_map_right_iff]
      refine (except_mapM_ok hplaced).imp fun f x hx => ?_
      obtain ⟨pc, hpc, hx⟩ := except_bind_ok hx
      cases hx
      exact hpc
    have hcount := StackMap.length_arrange placed
    have hshort : IsShort (attributeBytes n _) :=
      hfits.attributes _ (List.mem_append_right _ (hparts ▸ List.mem_singleton_self _))
    refine ⟨_, hoffsets, ?_⟩
    rw [hparts, if_neg hsome, ← hcount]
    exact .cons (Reader.reads_stackMapAttribute hn
      (Nat.lt_succ_of_le (hcount ▸ hfits.frames _ hoffsets)) (length_of_isShort hshort)) .nil

/-- Reading the code of a method. -/
theorem reads (a : b.Assembled name l p) (hhandlers : b.handlers.length ≤ 65535)
    (hfits : p.Fits b name) :
    ∃ s, (Reader.code l.pool.entries).Reads (p.bytes b) s ∧ b.IsReadAs name p.layout s := by
  obtain ⟨rows, hrows, hentries⟩ := a.reads_rows
  obtain ⟨offsets, hoffsets, hstackMap⟩ := a.reads_stackMap hfits
  have hattributes : List.Forall₂ (Reader.codeAttribute l.pool.entries).Reads p.attributes _ :=
    List.rel_append a.reads_lines hstackMap
  have hcode : p.code.length < 4294967296 := by
    rw [Layout.length_code a.encodes]
    exact a.size_le.trans_lt (by decide)
  have hcount : p.attributes.length < 65536 := by
    rw [hattributes.length_eq, List.length_append]
    split_ifs <;> simp
  have hreads : (Reader.code l.pool.entries).Reads (Word.bytes2 b.maxStack.toNat ++
      (Word.bytes2 b.maxLocals.toNat ++ ((Word.bytes4 p.code.length ++ p.code) ++
        ((Word.bytes2 b.handlers.length ++ p.rows.flatten) ++
          (Word.bytes2 p.attributes.length ++ p.attributes.flatten))))) _ :=
    (Reader.reads_u16 b.maxStack.toNat_lt).bind ((Reader.reads_u16 b.maxLocals.toNat_lt).bind
      ((Reader.reads_block hcode).bind
        ((Reader.reads_counted hrows hentries.length_eq (Nat.lt_succ_of_le hhandlers)).bind
          ((Reader.reads_counted hattributes hattributes.length_eq hcount).andReturn _))))
  refine ⟨_, by simpa only [CodeParts.bytes, List.append_assoc] using hreads, rfl, rfl, a.encodes,
    hentries, ?_, ?_, offsets, hoffsets, ?_⟩
  · dsimp only
    split_ifs <;> rfl
  · dsimp only
    split_ifs with hlines <;> simp [hlines]
  · dsimp only
    by_cases hframes : b.frames = []
    · rw [hframes] at hoffsets
      cases hoffsets
      rw [if_pos hframes]
      split_ifs <;> rfl
    · rw [if_neg hframes]
      split_ifs <;> rfl

end MethodBody.Assembled

structure Method.IsReadAs (m : Method) (l : Linker) (s : MethodSummary) : Prop where
  access : s.access = m.access.toNat
  name : s.name = m.name
  descriptor : s.descriptor = m.descriptor
  code : ∃ code linked, s.code = some code ∧
    List.Forall₂ (Instruction.LinksTo l.Denotes) m.body.instructions linked ∧
    m.body.IsReadAs m.name (Layout.ofList linked) code

theorem Method.Assembled.reads {m : Method} {l : Linker} {p : MethodParts}
    (a : m.Assembled l p) (hhandlers : m.body.handlers.length ≤ 65535)
    (hfits : p.body.Fits m.body m.name) (hlength : (p.body.bytes m.body).length < 4294967296) :
    ∃ s, (Reader.method l.pool.entries).Reads (p.bytes m) s ∧ m.IsReadAs l s := by
  obtain ⟨code, hcode, hbody⟩ := a.body.reads hhandlers hfits
  have hwithin := Reader.within_of_reads hcode []
  rw [List.append_nil] at hwithin
  have hattribute : (Reader.methodAttribute l.pool.entries).Reads
      (attributeBytes p.code (p.body.bytes m.body)) (some code) := by
    rw [← List.append_nil (attributeBytes _ _)]
    refine (Reader.reads_namedBlock a.code hlength).bind ?_
    dsimp only
    rw [if_pos rfl]
    exact (Reader.reads_known hwithin).map some
  have hcounted := Reader.reads_counted (n := 1) (.cons hattribute .nil) rfl (by decide)
  have hreads : (Reader.method l.pool.entries).Reads (Word.bytes2 m.access.toNat ++
      (Word.bytes2 p.name ++ (Word.bytes2 p.descriptor ++ (Word.bytes2 1 ++
        [attributeBytes p.code (p.body.bytes m.body)].flatten)))) _ :=
    (Reader.reads_u16 m.access.toNat_lt).bind ((Reader.reads_u16 a.name.lt).bind
      (.known (ConstantPool.utf8_entries a.name) ((Reader.reads_u16 a.descriptor.lt).bind
        (.known (ConstantPool.utf8_entries a.descriptor) (hcounted.andReturn _)))))
  exact ⟨_, by simpa only [MethodParts.bytes, List.append_assoc, List.flatten_singleton] using
    hreads, rfl, rfl, rfl, code, p.body.linked, rfl, a.body.links, hbody⟩

namespace Reader

variable {p : ConstantPool} {n : Nat}

theorem reads_sourceAttribute {i : Nat} {text : String} (hn : p.IsText n "SourceFile")
    (hi : p.IsText i text) :
    (classAttribute p.entries).Reads (attributeBytes n (Word.bytes2 i))
      ("SourceFile", some text, none) := by
  have hnumber : Word.ofBytes ((Word.bytes2 i).take 2) = i := by
    rw [List.take_of_length_le (by simp), Word.ofBytes_bytes2, Nat.mod_eq_of_lt hi.lt]
  rw [← List.append_nil (attributeBytes n _)]
  refine (reads_namedBlock hn (by simp)).bind ?_
  dsimp only
  rw [if_pos ⟨rfl, by simp⟩, hnumber]
  exact .known (ConstantPool.utf8_entries hi) (reads_pure _)

theorem reads_innerClassesAttribute {body : List UInt8} (hn : p.IsText n "InnerClasses")
    (hbody : body.length < 4294967296) :
    (classAttribute p.entries).Reads (attributeBytes n body) ("InnerClasses", none, none) := by
  rw [← List.append_nil (attributeBytes n _)]
  refine (reads_namedBlock hn hbody).bind ?_
  dsimp only
  rw [if_neg (by simp), if_neg (by simp)]
  exact reads_pure _

theorem reads_bootstrapAttribute {count : Nat} {rest : List UInt8}
    (hn : p.IsText n "BootstrapMethods") (hcount : count < 65536)
    (hbody : (Word.bytes2 count ++ rest).length < 4294967296) :
    (classAttribute p.entries).Reads (attributeBytes n (Word.bytes2 count ++ rest))
      ("BootstrapMethods", none, some count) := by
  have hnumber : Word.ofBytes ((Word.bytes2 count ++ rest).take 2) = count := by
    rw [show (2 : Nat) = (Word.bytes2 count).length from rfl, List.take_left, Word.ofBytes_bytes2,
      Nat.mod_eq_of_lt hcount]
  rw [← List.append_nil (attributeBytes n _)]
  refine (reads_namedBlock hn hbody).bind ?_
  dsimp only
  rw [if_neg (by simp), if_pos ⟨rfl, by simp⟩, hnumber]
  exact reads_pure _

end Reader

namespace ClassFile

def loaded (c : ClassFile) : List String := c.instructions.filterMap Instruction.text?

def bootstraps (c : ClassFile) : List (MethodHandle × List BootstrapArgument) :=
  c.instructions.filterMap Instruction.bootstrap?

structure IsReadAs (c : ClassFile) (l : Linker) (s : Summary) : Prop where
  major : s.major = 52
  access : s.access = c.access.toNat
  name : s.name = c.name
  superName : s.superName = c.superName
  methods : List.Forall₂ (fun m s => m.IsReadAs l s) c.methods s.methods
  attributes : s.attributes = (if c.sourceFile = none then [] else ["SourceFile"]) ++
    (if c.innerClasses = [] then [] else ["InnerClasses"]) ++
    if c.bootstraps = [] then [] else ["BootstrapMethods"]
  sourceFile : s.sourceFile = c.sourceFile
  bootstrapMethods : s.bootstrapMethods = c.bootstraps.toFinset.card
  strings : s.strings = c.loaded.eraseDups

/-- The attributes of a class as a reader tells them apart: a name, a source file and a number of
bootstrap methods. -/
def attributeRows (c : ClassFile) : List (String × Option String × Option Nat) :=
  (c.sourceFile.toList.map fun text => ("SourceFile", some text, none)) ++
    (if c.innerClasses = [] then [] else [("InnerClasses", none, none)]) ++
    if c.bootstraps = [] then []
      else [("BootstrapMethods", none, some c.bootstraps.toFinset.card)]

theorem length_attributeRows_le (c : ClassFile) : c.attributeRows.length ≤ 3 := by
  rw [attributeRows, List.length_append, List.length_append]
  cases c.sourceFile <;> split_ifs <;> simp

theorem names_attributeRows (c : ClassFile) : (c.attributeRows.map fun row => row.1) =
    (if c.sourceFile = none then [] else ["SourceFile"]) ++
      (if c.innerClasses = [] then [] else ["InnerClasses"]) ++
      if c.bootstraps = [] then [] else ["BootstrapMethods"] := by
  rw [attributeRows]
  cases c.sourceFile <;> split_ifs <;> simp_all

theorem latest_source_attributeRows (c : ClassFile) :
    Reader.latest (c.attributeRows.map fun row => row.2.1) = c.sourceFile := by
  rw [attributeRows]
  cases c.sourceFile <;> split_ifs <;> rfl

theorem latest_bootstraps_attributeRows (c : ClassFile) :
    (Reader.latest (c.attributeRows.map fun row => row.2.2)).getD 0 =
      c.bootstraps.toFinset.card := by
  rw [attributeRows]
  cases c.sourceFile <;> split_ifs <;> simp_all [Reader.latest]

/-- The bootstrap table has one entry for each distinct bootstrap method with its arguments. -/
theorem length_bootstraps {c : ClassFile} {l : Linker} (h : l.Holds c.instructions) :
    l.bootstraps.toList.length = c.bootstraps.toFinset.card := by
  rw [h.bootstraps.length_eq, ← List.toFinset_card_of_nodup (nodup_eraseDups _)]
  congr 1
  ext x
  simp [ClassFile.bootstraps]

theorem bootstraps_eq_nil_iff {c : ClassFile} {l : Linker} (h : l.Holds c.instructions) :
    l.bootstraps.toList = [] ↔ c.bootstraps = [] := by
  rw [← List.length_eq_zero_iff, length_bootstraps h, Finset.card_eq_zero,
    List.toFinset_eq_empty_iff]

end ClassFile

/-- The parts of a class file that it can hold, apart from its counts of methods, exception entries
and bootstrap methods. -/
structure ClassParts.Fits (p : ClassParts) (c : ClassFile) : Prop where
  methods : List.Forall₂ (fun m (q : MethodParts) => q.body.Fits m.body m.name ∧
    (q.body.bytes m.body).length < 4294967296) c.methods p.methods
  attributes : ∀ bytes ∈ p.attributes, IsShort bytes

namespace ClassFile.Assembled

variable {c : ClassFile} {l : Linker} {p : ClassParts}

theorem reads_methods (a : c.Assembled l p)
    (hhandlers : ∀ m ∈ c.methods, m.body.handlers.length ≤ 65535) (hfits : p.Fits c) :
    ∃ summaries, List.Forall₂ (Reader.method l.pool.entries).Reads (p.methodBytes c) summaries ∧
      List.Forall₂ (fun m s => m.IsReadAs l s) c.methods summaries := by
  have hall := a.methods
  have hshort := hfits.methods
  rw [ClassParts.methodBytes]
  generalize p.methods = parts at hall hshort
  generalize c.methods = methods at hall hshort hhandlers
  induction hall with
  | nil => exact ⟨[], .nil, .nil⟩
  | cons hfirst _ ih =>
    obtain ⟨⟨hbody, hlength⟩, hshort⟩ := List.forall₂_cons.1 hshort
    obtain ⟨s, hs, hm⟩ := hfirst.reads (hhandlers _ List.mem_cons_self) hbody hlength
    obtain ⟨summaries, hsummaries, hmethods⟩ := ih hshort fun m hm => hhandlers m (.tail _ hm)
    exact ⟨s :: summaries, .cons hs hsummaries, .cons hm hmethods⟩

theorem reads_attributes (a : c.Assembled l p) (hl : l.Holds c.instructions)
    (hcount : c.bootstraps.toFinset.card ≤ 65535) (hfits : p.Fits c) :
    List.Forall₂ (Reader.classAttribute l.pool.entries).Reads p.attributes c.attributeRows := by
  have hdistinct := length_bootstraps hl
  obtain ⟨hfirst, hbootstraps⟩ := List.forall_mem_append.1 hfits.attributes
  obtain ⟨-, hinner⟩ := List.forall_mem_append.1 hfirst
  refine List.rel_append (List.rel_append ?_ ?_) ?_
  · rcases a.source with ⟨hnone, hparts⟩ | ⟨-, n, body, hn, ⟨text, i, htext, hi, rfl⟩, hparts⟩
    · rw [not_not.1 hnone, hparts]
      exact .nil
    · rw [htext, hparts]
      exact .cons (Reader.reads_sourceAttribute hn hi) .nil
  · rcases a.inner with ⟨hnone, hparts⟩ | ⟨hsome, n, body, hn, -, hparts⟩
    · rw [if_pos (not_not.1 hnone), hparts]
      exact .nil
    · rw [hparts, List.forall_mem_singleton] at hinner
      rw [if_neg hsome, hparts]
      exact .cons (Reader.reads_innerClassesAttribute hn (length_of_isShort hinner)) .nil
  · rcases a.bootstraps with ⟨hnone, hparts⟩ | ⟨hsome, n, body, hn, rfl, hparts⟩
    · rw [if_pos ((bootstraps_eq_nil_iff hl).1 (not_not.1 hnone)), hparts]
      exact .nil
    · rw [hparts, List.forall_mem_singleton] at hbootstraps
      rw [if_neg fun hnone => hsome ((bootstraps_eq_nil_iff hl).2 hnone), hparts, ← hdistinct]
      exact .cons (Reader.reads_bootstrapAttribute hn
        (Nat.lt_succ_of_le (hdistinct ▸ hcount)) (length_of_isShort hbootstraps)) .nil

/-- The whole file is read. -/
theorem reads (a : c.Assembled l p) (hl : l.Holds c.instructions)
    (hmethods : c.methods.length ≤ 65535)
    (hhandlers : ∀ m ∈ c.methods, m.body.handlers.length ≤ 65535)
    (hbootstraps : c.bootstraps.toFinset.card ≤ 65535) (hfits : p.Fits c) :
    ∃ s, Reader.summary.Reads (p.bytes c l) s ∧ c.IsReadAs l s := by
  obtain ⟨summaries, hsummaries, hread⟩ := a.reads_methods hhandlers hfits
  have hattributes := a.reads_attributes hl hbootstraps hfits
  have hcount : p.attributes.length < 65536 := by
    rw [hattributes.length_eq]
    exact Nat.lt_of_le_of_lt c.length_attributeRows_le (by decide)
  have hnone : Reader.skipField.counted.Reads (Word.bytes2 0 ++ [].flatten) [] :=
    Reader.reads_counted .nil rfl (by decide)
  obtain ⟨s, hs⟩ : ∃ s : Summary, s = {
        major := majorVersion
        access := c.access.toNat
        name := c.name
        superName := c.superName
        methods := summaries
        attributes := c.attributeRows.map fun row => row.1
        sourceFile := Reader.latest (c.attributeRows.map fun row => row.2.1)
        bootstrapMethods := (Reader.latest (c.attributeRows.map fun row => row.2.2)).getD 0
        strings := l.pool.entries.strings } := ⟨_, rfl⟩
  have hreads : Reader.summary.Reads (Word.bytes4 magic ++ (Word.bytes2 0 ++
      (Word.bytes2 majorVersion ++ ((Word.bytes2 l.pool.count ++ l.pool.bytes) ++
        (Word.bytes2 c.access.toNat ++ (Word.bytes2 p.thisClass ++ (Word.bytes2 p.superClass ++
          (Word.bytes2 0 ++ ([] ++ ((Word.bytes2 0 ++ [].flatten) ++
            ((Word.bytes2 c.methods.length ++
              (p.methodBytes c).flatten) ++
              (Word.bytes2 p.attributes.length ++ p.attributes.flatten)))))))))))) s := by
    rw [hs]
    refine (Reader.reads_u32 (by decide)).bind ?_
    rw [if_neg (by decide)]
    exact (Reader.reads_skip (Word.bytes2 0)).bind ((Reader.reads_u16 (by decide)).bind
      ((ConstantPool.reads_poolTable hl.pool.fits).bind
        ((Reader.reads_u16 c.access.toNat_lt).bind ((Reader.reads_u16 a.thisClass.lt).bind
          (.known (ConstantPool.className_entries a.thisClass)
            ((Reader.reads_u16 a.superClass.lt).bind
              (.known (ConstantPool.className_entries a.superClass)
                ((Reader.reads_u16 (by decide)).bind ((Reader.reads_skip []).bind (hnone.bind
                  ((Reader.reads_counted hsummaries hread.length_eq
                    (Nat.lt_succ_of_le hmethods)).bind
                    ((Reader.reads_counted hattributes hattributes.length_eq hcount).andReturn
                      _))))))))))))
  refine ⟨s, ?_, ?_⟩
  · simpa only [ClassParts.bytes, ClassParts.body, List.append_assoc, List.nil_append,
      List.flatten_nil] using hreads
  · rw [hs]
    exact ⟨rfl, rfl, rfl, rfl, hread, c.names_attributeRows, c.latest_source_attributeRows,
      c.latest_bootstraps_attributeRows, ConstantPool.strings_entries hl.pool.loads⟩

end ClassFile.Assembled

theorem isShort_of_flatten {parts : List (List UInt8)} (h : parts.flatten.length < 6 + 4294967296) :
    ∀ bytes ∈ parts, IsShort bytes := fun _ hbytes =>
  ((List.sublist_flatten_of_mem hbytes).length_le).trans_lt h

theorem length_flatten_le {parts : List (List UInt8)} {k : Nat}
    (h : ∀ part ∈ parts, part.length ≤ k) : parts.flatten.length ≤ parts.length * k := by
  rw [List.length_flatten]
  simpa using List.sum_le_card_nsmul (parts.map List.length) k (by simpa using h)

theorem Linker.IsAttribute.length_le {l : Linker} {name : String} {present : Prop}
    {Q : List UInt8 → Prop} {parts : List (List UInt8)} {k : Nat}
    (h : l.IsAttribute name present Q parts) (hQ : ∀ body, Q body → body.length ≤ k) :
    parts.flatten.length ≤ 6 + k := by
  rcases h with ⟨-, rfl⟩ | ⟨-, n, body, -, hbody, rfl⟩
  · exact Nat.zero_le _
  · have := hQ body hbody
    simp [attributeBytes]
    omega

namespace MethodBody.Assembled

variable {b : MethodBody} {name : String} {l : Linker} {p : CodeParts}

theorem length_lines_le (a : b.Assembled name l p) :
    p.lines.flatten.length ≤ 6 + (2 + 65535 * 4) := by
  have hlength : p.layout.lineTable.length ≤ 65535 :=
    (Layout.length_lineTable_le p.linked).trans a.size_le
  refine a.lines.length_le ?_
  rintro body rfl
  simp [List.length_flatMap]
  omega

theorem length_stackMap_le (a : b.Assembled name l p) :
    p.stackMap.flatten.length ≤
      6 + (2 + (b.frames.map fun f => StackMap.frameBound b.locals f.stack).sum) := by
  refine a.stackMap.length_le ?_
  rintro body ⟨placed, hplaced, parts, hparts, rfl⟩
  have hstacks : placed.map Prod.snd = b.frames.map Frame.stack := by
    rw [← List.forall₂_eq_eq_eq, List.forall₂_map_left_iff, List.forall₂_map_right_iff]
    refine (except_mapM_ok hplaced).flip.imp fun f frame hf => ?_
    obtain ⟨pc, -, hf⟩ := except_bind_ok hf
    cases hf
    rfl
  have hlength : parts.flatten.length ≤
      ((StackMap.arrange placed).map fun f => StackMap.frameBound b.locals f.2).sum := by
    have hsame := congrArg (List.map (StackMap.frameBound b.locals))
      (StackMap.map_snd_distances none (StackMap.arrange placed))
    rw [List.map_map, List.map_map] at hsame
    have hbounds : List.Forall₂ (· ≤ ·) (parts.map List.length) ((StackMap.distances none
        (StackMap.arrange placed)).map (StackMap.frameBound b.locals ∘ Prod.snd)) := by
      rw [List.forall₂_map_left_iff, List.forall₂_map_right_iff]
      exact hparts.flip
    rw [List.length_flatten]
    exact hbounds.sum_le_sum.trans_eq (congrArg List.sum hsame)
  have hkept : ((StackMap.arrange placed).map fun f => StackMap.frameBound b.locals f.2).sum ≤
      (b.frames.map fun f => StackMap.frameBound b.locals f.stack).sum := by
    have hframes := congrArg (List.map (StackMap.frameBound b.locals)) hstacks
    rw [List.map_map, List.map_map] at hframes
    obtain ⟨kept, hkept, hsublist⟩ := StackMap.subperm_arrange placed
    rw [← (hkept.map _).sum_nat]
    exact ((hsublist.map _).sum_le_sum fun _ _ => Nat.zero_le _).trans_eq
      (congrArg List.sum hframes)
  rw [List.length_append, Word.length_bytes2]
  omega

theorem fits (a : b.Assembled name l p) (hhandlers : b.handlers.length ≤ 65535)
    (hcount : b.frames.length ≤ 65535)
    (hframes : (b.frames.map fun f => StackMap.frameBound b.locals f.stack).sum ≤ 65535 * 60000) :
    p.Fits b name ∧ (p.bytes b).length < 4294967296 := by
  have hlines := a.length_lines_le
  have hstackMap := a.length_stackMap_le
  have hcode : p.code.length ≤ 65535 := by
    rw [Layout.length_code a.encodes]
    exact a.size_le
  have hrows : p.rows.flatten.length ≤ p.rows.length * 8 := by
    refine length_flatten_le fun row hrow => ?_
    obtain ⟨e, -, start, stop, handler, caught, -, -, -, -, rfl⟩ :=
      exists_of_mem_right a.handlers hrow
    simp
  rw [← a.handlers.length_eq] at hrows
  refine ⟨⟨fun offsets hoffsets => ?_, List.forall_mem_append.2 ⟨isShort_of_flatten ?_,
    isShort_of_flatten ?_⟩⟩, ?_⟩
  · exact (List.toFinset_card_le _).trans (hoffsets.length_eq ▸ hcount)
  · omega
  · omega
  · simp only [CodeParts.bytes, CodeParts.attributes, List.length_append, List.flatten_append,
      Word.length_bytes2, Word.length_bytes4]
    omega

end MethodBody.Assembled

theorem ClassFile.Assembled.fits {c : ClassFile} {l : Linker} {p : ClassParts}
    (a : c.Assembled l p) (hl : l.Holds c.instructions)
    (hmethods : ∀ m ∈ c.methods, m.body.handlers.length ≤ 65535 ∧ m.body.frames.length ≤ 65535 ∧
      (m.body.frames.map fun f => StackMap.frameBound m.body.locals f.stack).sum ≤ 65535 * 60000)
    (hinner : c.innerClasses.length ≤ 65535) (hcount : c.bootstraps.toFinset.card ≤ 65535)
    (hsites : ∀ x ∈ c.bootstraps, x.2.length ≤ 19000) : p.Fits c := by
  refine ⟨?_, List.forall_mem_append.2 ⟨List.forall_mem_append.2 ⟨isShort_of_flatten ?_,
    isShort_of_flatten ?_⟩, isShort_of_flatten ?_⟩⟩
  · have hall := a.methods
    generalize c.methods = methods at hall hmethods
    generalize p.methods = parts at hall
    induction hall with
    | nil => exact .nil
    | cons hfirst _ ih =>
      obtain ⟨⟨hhandlers, hframes, hstacks⟩, hrest⟩ := List.forall_mem_cons.1 hmethods
      exact .cons (hfirst.body.fits hhandlers hframes hstacks) (ih hrest)
  · refine (a.source.length_le (k := 2) ?_).trans_lt (by decide)
    rintro body ⟨text, i, -, -, rfl⟩
    exact Nat.le_refl 2
  · refine (a.inner.length_le (k := 2 + 65535 * 8) ?_).trans_lt (by decide)
    rintro body ⟨rows, hrows, rfl⟩
    have hlength : rows.flatten.length ≤ rows.length * 8 := by
      refine length_flatten_le fun row hrow => ?_
      obtain ⟨inner, -, i, j, n, -, -, -, rfl⟩ := exists_of_mem_right hrows hrow
      exact Nat.le_refl 8
    rw [← hrows.length_eq] at hlength
    rw [List.length_append, Word.length_bytes2]
    omega
  · refine (a.bootstraps.length_le (k := 2 + 65535 * 60000) ?_).trans_lt (by decide)
    rintro body rfl
    have hlength : (l.bootstraps.toList.flatMap Bootstrap.bytes).length ≤
        (l.bootstraps.toList.map Bootstrap.bytes).length * 60000 := by
      refine length_flatten_le (List.forall_mem_map.2 fun entry hentry => ?_)
      obtain ⟨x, hx, -, harguments⟩ := exists_of_mem_left hl.bootstraps hentry
      have := hsites x (List.mem_eraseDups.1 hx)
      have := harguments.length_eq
      simp [Bootstrap.bytes, List.length_flatMap]
      omega
    rw [List.length_map, length_bootstraps hl] at hlength
    rw [List.length_append, Word.length_bytes2]
    omega

/-- A class file that can be written is read back, if its counts and the lengths of its attributes
are in the range of the format. -/
theorem ClassFile.parse_bytes {c : ClassFile} {b : List UInt8} (h : c.bytes = .ok b)
    (hmethods : c.methods.length ≤ 65535)
    (hhandlers : ∀ m ∈ c.methods, m.body.handlers.length ≤ 65535)
    (hbootstraps : c.bootstraps.toFinset.card ≤ 65535)
    (hfits : ∀ p l, c.parts {} = .ok p l → p.Fits c) :
    ∃ p l s, c.parts {} = .ok p l ∧ l.Holds c.instructions ∧ Summary.parse b = .ok s ∧
      c.IsReadAs l s := by
  obtain ⟨p, l, hparts, rfl⟩ := exists_parts h
  obtain ⟨hl, ha⟩ := assembled_parts hparts
  obtain ⟨s, hs, hread⟩ := ha.reads hl hmethods hhandlers hbootstraps (hfits p l hparts)
  have hparse := Reader.within_of_reads hs []
  rw [List.append_nil] at hparse
  exact ⟨p, l, s, hparts, hl, hparse, hread⟩

namespace Greeter

def site : CallSite where
  name := "greet"
  descriptor := "(Ljava/lang/Object;)Ljava/lang/Object;"
  bootstrap := ⟨.invokeStatic, ⟨"st/core/Linkage", "link", "()Ljava/lang/invoke/CallSite;"⟩⟩
  arguments := [.methodType "()V"]

/-- Greets, and answers the exception if that fails. -/
def greet : Method where
  access := Access.isPublic
  name := "greet"
  descriptor := "()Ljava/lang/Object;"
  body := {
    instructions := [.line 1, .mark ⟨0⟩, .constant (.string "hello"), .dynamic site,
      .jump .goto ⟨2⟩, .mark ⟨1⟩, .line 2, .slot .astore 1, .slot .aload 1, .mark ⟨2⟩,
      .plain .areturn]
    handlers := [⟨⟨0⟩, ⟨1⟩, ⟨1⟩, some "java/lang/Throwable"⟩]
    frames := [⟨⟨1⟩, [.object "java/lang/Throwable"]⟩, ⟨⟨2⟩, [.object "java/lang/Object"]⟩]
    locals := [.object "st/Greeter"]
    maxStack := 1
    maxLocals := 2 }

def file : ClassFile where
  name := "st/Greeter"
  superName := "java/lang/Object"
  sourceFile := some "Greeter.st"
  methods := [greet]
  innerClasses := [.lookup]

theorem file_fits : file.Fits := ⟨short_of_bytes (by decide), by decide, by decide⟩

end Greeter

theorem parse_bytes_greeter : ∃ b, Greeter.file.bytes = .ok b ∧
    ∃ p l s, Greeter.file.parts {} = .ok p l ∧ l.Holds Greeter.file.instructions ∧
      Summary.parse b = .ok s ∧ Greeter.file.IsReadAs l s := by
  obtain ⟨b, hb⟩ := ClassFile.exists_bytes_of_fits Greeter.file_fits
  refine ⟨b, hb, ClassFile.parse_bytes hb (by decide) (by decide) (by decide) fun p l hp => ?_⟩
  obtain ⟨hl, ha⟩ := ClassFile.assembled_parts hp
  exact ha.fits hl (by decide) (by decide) (by decide) (by decide)

end SmalltalkJvm
