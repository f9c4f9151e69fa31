import SmalltalkJvm.Proofs.Decoding
import SmalltalkJvm.Proofs.Nesting

/-! # Assembled code is the symbolic code

A disassembly lists the instructions of a code array and the entries of its exception table, with a
number for each place that a branch or an entry names: that of the instruction that starts there.

The disassembly of an assembled body lists the instructions of the body, each at the offset that the
layout gave it, and a label has the number of the instruction behind its mark.
-/

namespace SmalltalkJvm

namespace Reader

variable {α : Type}

/-- Items up to the end of the input, each with its position, which the reader may use. An item
takes some bytes. -/
def toEnd (r : Nat → Reader α) (c : Cursor) : Except FormatFault (List (Nat × α)) :=
  if c.rest = [] then .ok []
  else
    match r c.position c with
    | .error fault => .error fault
    | .ok (a, next) =>
      if next.rest.length < c.rest.length then (toEnd r next).map ((c.position, a) :: ·)
      else .error (.truncated c.position)
termination_by c.rest.length

theorem toEnd_nil (r : Nat → Reader α) (position : Nat) : toEnd r ⟨[], position⟩ = .ok [] := by
  rw [toEnd, if_pos rfl]

theorem toEnd_append {r : Nat → Reader α} {position : Nat} {part rest : List UInt8} {a : α}
    {items : List (Nat × α)} (h : (r position).Reads part a) (hpart : part ≠ [])
    (hrest : toEnd r ⟨rest, position + part.length⟩ = .ok items) :
    toEnd r ⟨part ++ rest, position⟩ = .ok ((position, a) :: items) := by
  have hlength := List.length_pos_iff.2 hpart
  rw [toEnd, if_neg (by simp [hpart])]
  simp only [h rest position]
  rw [if_pos (by simp only [List.length_append]; omega), hrest]
  rfl

end Reader

def Instruction.retarget (f : Label → Option Label) : Instruction → Option Instruction
  | jump op target => (f target).map (jump op)
  | i => some i

def ExceptionEntry.retarget (f : Label → Option Label) (e : ExceptionEntry) :
    Option ExceptionEntry := do
  return ⟨← f e.start, ← f e.stop, ← f e.handler, e.catches⟩

/-- A row of an exception table; class number 0 catches everything. -/
def Reader.handler (constants : List Constant) : Reader ExceptionEntry := do
  let start ← u16
  let stop ← u16
  let handler ← u16
  let caught ← u16
  if caught = 0 then return ⟨⟨start⟩, ⟨stop⟩, ⟨handler⟩, none⟩
  else
    let name ← Constants.className constants caught
    return ⟨⟨start⟩, ⟨stop⟩, ⟨handler⟩, some name⟩

structure Listing where
  /-- The offsets at which the instructions start. -/
  starts : List Nat
  instructions : List Instruction
  handlers : List ExceptionEntry
  deriving DecidableEq, Repr

/-- The number of the instruction that starts at the offset which a label stands for. -/
def Label.among (starts : List Nat) (label : Label) : Option Label :=
  (starts.idxOf? label.index).map Label.mk

/-- The listing of a code array and of its exception table, with the constant pool and the bootstrap
table of the class. The end of the code has the number after the last instruction. -/
def disassemble (pool table code rows : List UInt8) : Option Listing := do
  let constants ← (Reader.within pool Reader.constants).toOption
  let bootstraps ← (Reader.within table Reader.bootstraps).toOption
  let decoded ← (Reader.toEnd (Reader.instruction constants bootstraps) ⟨code, 0⟩).toOption
  let entries ← (Reader.toEnd (fun _ => Reader.handler constants) ⟨rows, 0⟩).toOption
  let starts := decoded.map Prod.fst
  let number := Label.among (starts ++ [code.length])
  let instructions ← decoded.mapM fun x => x.2.retarget number
  let handlers ← entries.mapM fun x => x.2.retarget number
  return { starts, instructions, handlers }

theorem disassemble_eq_some {pool table code rows : List UInt8} {constants : List Constant}
    {bootstraps : List Bootstrap} {decoded : List (Nat × Instruction)}
    {entries : List (Nat × ExceptionEntry)} {listing : Listing}
    (hpool : Reader.within pool Reader.constants = .ok constants)
    (htable : Reader.within table Reader.bootstraps = .ok bootstraps)
    (hdecoded : Reader.toEnd (Reader.instruction constants bootstraps) ⟨code, 0⟩ = .ok decoded)
    (hentries : Reader.toEnd (fun _ => Reader.handler constants) ⟨rows, 0⟩ = .ok entries)
    (hstarts : decoded.map Prod.fst = listing.starts)
    (hinstructions : decoded.mapM (fun x => x.2.retarget
      (Label.among (listing.starts ++ [code.length]))) = some listing.instructions)
    (hhandlers : entries.mapM (fun x => x.2.retarget
      (Label.among (listing.starts ++ [code.length]))) = some listing.handlers) :
    disassemble pool table code rows = some listing := by
  rw [disassemble, hpool, htable]
  change (Reader.toEnd (Reader.instruction constants bootstraps) ⟨code, 0⟩).toOption.bind _ = _
  rw [hdecoded]
  change (Reader.toEnd (fun _ => Reader.handler constants) ⟨rows, 0⟩).toOption.bind _ = _
  rw [hentries]
  change (decoded.mapM fun x : Nat × Instruction => x.2.retarget
    (Label.among (decoded.map Prod.fst ++ [code.length]))).bind _ = _
  rw [hstarts, hinstructions, Option.bind_some, hhandlers]
  rfl

def MethodBody.number (b : MethodBody) (label : Label) : Label :=
  ⟨((b.instructions.take (markPlace b.instructions label)).filter Instruction.isCode).length⟩

def MethodBody.listing (b : MethodBody) (offsets : List Nat) : Listing where
  starts := ((b.instructions.zip offsets).filter fun x => x.1.isCode).map Prod.snd
  instructions := b.code.map (Instruction.listed b.number)
  handlers := b.handlers.map fun e =>
    ⟨b.number e.start, b.number e.stop, b.number e.handler, e.catches⟩

/-- The offsets of the instructions that produce code, if the first has the offset given. -/
def codeStarts (pc : Nat) (code : List Instruction) (linked : List Linked) : List Nat :=
  ((code.zip ((withOffsets pc linked).map Prod.fst)).filter fun x => x.1.isCode).map Prod.snd

theorem codeStarts_cons (pc : Nat) (i : Instruction) (code : List Instruction) (k : Linked)
    (linked : List Linked) : codeStarts pc (i :: code) (k :: linked) =
      (if i.isCode then [pc] else []) ++ codeStarts (pc + k.size) code linked := by
  simp only [codeStarts, withOffsets, List.map_cons, List.zip_cons_cons, List.filter_cons]
  split_ifs <;> rfl

section

variable {R : Operand → Nat → Prop} {i : Instruction} {k : Linked} {code : List Instruction}
  {linked : List Linked}

theorem codeStarts_append (pc : Nat) {first second : List Instruction}
    {linked₁ linked₂ : List Linked} (h : List.Forall₂ (Instruction.LinksTo R) first linked₁) :
    codeStarts pc (first ++ second) (linked₁ ++ linked₂) =
      codeStarts pc first linked₁ ++ codeStarts (pc + codeSize linked₁) second linked₂ := by
  induction h generalizing pc with
  | nil => rfl
  | cons _ _ ih =>
    rw [List.cons_append, List.cons_append, codeStarts_cons, codeStarts_cons, ih, codeSize_cons,
      List.append_assoc, Nat.add_assoc]

theorem length_codeStarts (pc : Nat) (h : List.Forall₂ (Instruction.LinksTo R) code linked) :
    (codeStarts pc code linked).length = (code.filter Instruction.isCode).length := by
  induction h generalizing pc with
  | nil => rfl
  | cons _ _ ih =>
    rw [codeStarts_cons, List.filter_cons, List.length_append, ih]
    split_ifs
    · exact Nat.add_comm 1 _
    · exact Nat.zero_add _

/-- Offsets rise, up to the end of the code. -/
theorem codeStarts_rising (pc : Nat) (h : List.Forall₂ (Instruction.LinksTo R) code linked) :
    (∀ start ∈ codeStarts pc code linked ++ [pc + codeSize linked], pc ≤ start) ∧
      (codeStarts pc code linked ++ [pc + codeSize linked]).Pairwise (· < ·) := by
  induction h generalizing pc with
  | nil => simp [codeStarts]
  | @cons i k code linked hik _ ih =>
    obtain ⟨hlow, hrising⟩ := ih (pc + k.size)
    rw [codeStarts_cons, codeSize_cons, ← Nat.add_assoc, List.append_assoc]
    cases hi : i.isCode with
    | false =>
      rw [hik.size_eq_zero hi] at hlow hrising ⊢
      exact ⟨hlow, hrising⟩
    | true =>
      have hpos := hik.size_pos hi
      have hlater : ∀ start ∈ codeStarts (pc + k.size) code linked ++
          [pc + k.size + codeSize linked], pc < start := fun start hstart =>
        (Nat.lt_add_of_pos_right hpos).trans_le (hlow start hstart)
      exact ⟨List.forall_mem_cons.2 ⟨Nat.le_refl _, fun start hstart => (hlater start hstart).le⟩,
        List.pairwise_cons.2 ⟨hlater, hrising⟩⟩

/-- What does not produce code takes no room: the next instruction starts at the same offset. -/
theorem head_codeStarts (pc : Nat) (h : List.Forall₂ (Instruction.LinksTo R) code linked) :
    (codeStarts pc code linked ++ [pc + codeSize linked])[0]? = some pc := by
  induction h generalizing pc with
  | nil => rfl
  | @cons i k code linked hik _ ih =>
    rw [codeStarts_cons, codeSize_cons, ← Nat.add_assoc, List.append_assoc]
    cases hi : i.isCode with
    | false =>
      rw [hik.size_eq_zero hi]
      exact ih pc
    | true => rfl

/-- At the offset of a place in the code the next instruction starts that produces code. -/
theorem idxOf?_codeStarts (h : List.Forall₂ (Instruction.LinksTo R) code linked) (place : Nat) :
    (codeStarts 0 code linked ++ [codeSize linked]).idxOf? (codeSize (linked.take place)) =
      some ((code.take place).filter Instruction.isCode).length := by
  have hfirst := List.forall₂_take place h
  have hsecond := List.forall₂_drop place h
  have hstarts : codeStarts 0 code linked ++ [codeSize linked] =
      codeStarts 0 (code.take place) (linked.take place) ++
        (codeStarts (codeSize (linked.take place)) (code.drop place) (linked.drop place) ++
          [codeSize (linked.take place) + codeSize (linked.drop place)]) := by
    rw [← codeSize_append, List.take_append_drop, ← List.append_assoc]
    conv_lhs => rw [← List.take_append_drop place code, ← List.take_append_drop place linked]
    rw [codeStarts_append 0 hfirst, Nat.zero_add, List.take_append_drop]
  have hrising := (codeStarts_rising 0 h).2
  rw [Nat.zero_add] at hrising
  have hget : (codeStarts 0 code linked ++ [codeSize linked])[
      ((code.take place).filter Instruction.isCode).length]? =
        some (codeSize (linked.take place)) := by
    rw [hstarts, ← length_codeStarts 0 hfirst, List.getElem?_append_right (Nat.le_refl _),
      Nat.sub_self]
    exact head_codeStarts _ hsecond
  obtain ⟨hlt, heq⟩ := List.getElem?_eq_some_iff.1 hget
  refine List.idxOf?_eq_some_iff.2 ⟨hlt, heq, fun j hj hsame => ?_⟩
  have hless := List.pairwise_iff_getElem.1 hrising j _ (hj.trans hlt) hlt hj
  omega

end

/-- Linked instructions are read as those that produce code, at their offsets. -/
theorem Reader.toEnd_linked {l : Linker} (hcount : l.bootstraps.toList.length < 65536)
    {layout : Layout} {method : String} {code : List Instruction} {linked : List Linked}
    (hlinks : List.Forall₂ (Instruction.LinksTo l.Denotes) code linked)
    (hforms : ∀ i ∈ code, i.IsRegular) {pc : Nat} {parts : List (List UInt8)}
    (hparts : List.Forall₂ (fun x part => x.2.bytes layout method x.1 = .ok part)
      (withOffsets pc linked) parts) :
    toEnd (instruction l.pool.table.toList l.bootstraps.toList) ⟨parts.flatten, pc⟩ =
      .ok ((codeStarts pc code linked).zip
        ((code.filter Instruction.isCode).map (Instruction.listed layout.target))) := by
  induction hlinks generalizing pc parts with
  | nil =>
    cases hparts
    exact toEnd_nil _ _
  | @cons i k code linked hik _ ih =>
    obtain ⟨hi, hforms⟩ := List.forall_mem_cons.1 hforms
    rw [withOffsets] at hparts
    obtain ⟨part, rest, hpart, hrest, rfl⟩ := List.forall₂_cons_left_iff.1 hparts
    have hlength := Linked.length_bytes hpart
    have hitems := ih hforms hrest
    rw [codeStarts_cons, List.filter_cons, List.flatten_cons]
    cases hcode : i.isCode with
    | false =>
      rw [hik.size_eq_zero hcode] at hlength hitems ⊢
      rw [List.eq_nil_of_length_eq_zero hlength]
      exact hitems
    | true =>
      have hne : part ≠ [] := by
        rintro rfl
        exact (hik.size_pos hcode).ne hlength
      rw [← hlength] at hitems ⊢
      exact toEnd_append (reads_linked hcount hik hi hcode hpart) hne hitems

theorem mapM_eq_some {α β : Type} {f : α → Option β} {g : α → β} {xs : List α}
    (h : ∀ x ∈ xs, f x = some (g x)) : xs.mapM f = some (xs.map g) := by
  induction xs with
  | nil => rfl
  | cons x xs ih =>
    obtain ⟨hx, hxs⟩ := List.forall_mem_cons.1 h
    rw [List.mapM_cons, hx, ih hxs]
    rfl

/-- The items that were read at some positions as the images of a list, mapped on. -/
theorem mapM_snd_eq_some {α β γ : Type} {items : List (Nat × β)} {xs : List α} {read : α → β}
    {f : β → Option γ} {g : α → γ} (hitems : items.map Prod.snd = xs.map read)
    (h : ∀ x ∈ xs, f (read x) = some (g x)) : items.mapM (fun x => f x.2) = some (xs.map g) :=
  calc items.mapM (fun x => f x.2)
    _ = (items.map Prod.snd).mapM f := List.mapM_map.symm
    _ = xs.mapM (f ∘ read) := by rw [hitems, List.mapM_map]
    _ = some (xs.map g) := mapM_eq_some h

theorem Instruction.retarget_listed {f g : Label → Label} {find : Label → Option Label}
    {i : Instruction} (h : ∀ op target, i = .jump op target → find (f target) = some (g target)) :
    (i.listed f).retarget find = some (i.listed g) := by
  cases i with
  | plain op => cases op <;> rfl
  | jump op target =>
    change (find (f target)).map _ = _
    rw [h op target rfl]
    rfl
  | _ => rfl

theorem Reader.reads_handler {p : ConstantPool} {start stop handler caught : Nat}
    {catches : Option String} (hstart : start < 65536) (hstop : stop < 65536)
    (hhandler : handler < 65536)
    (h : match catches with
      | some name => p.IsClass caught name
      | none => caught = 0) :
    (Reader.handler p.table.toList).Reads
      (Word.bytes2 start ++ Word.bytes2 stop ++ Word.bytes2 handler ++ Word.bytes2 caught)
      ⟨⟨start⟩, ⟨stop⟩, ⟨handler⟩, catches⟩ := by
  rw [List.append_assoc, List.append_assoc]
  cases catches with
  | none =>
    obtain rfl : caught = 0 := h
    refine (reads_u16 hstart).bind ((reads_u16 hstop).bind ((reads_u16 hhandler).bind
      ((reads_u16 (by decide)).bind ?_)))
    rw [if_pos rfl]
    exact reads_pure _
  | some name =>
    have hclass : p.IsClass caught name := h
    have hne : caught ≠ 0 := by
      obtain ⟨j, hj, -⟩ := hclass
      exact (ConstantPool.lt_of_get? hj).1.ne'
    refine (reads_u16 hstart).bind ((reads_u16 hstop).bind ((reads_u16 hhandler).bind
      ((reads_u16 hclass.lt).bind ?_)))
    rw [if_neg hne]
    exact .known (Constants.className_eq hclass) (reads_pure _)

theorem MethodBody.starts_listing (b : MethodBody) (p : CodeParts) :
    (b.listing (p.layout.placed.toList.map Prod.fst)).starts =
      codeStarts 0 b.instructions p.linked := by
  rw [listing, CodeParts.layout, Layout.placed_ofList, codeStarts]

namespace MethodBody.Assembled

variable {b : MethodBody} {name : String} {l : Linker} {p : CodeParts}

/-- The offset of a label is that of the instruction behind its mark. -/
theorem number_eq (a : b.Assembled name l p)
    (hmarks : ∀ label, b.instructions.count (.mark label) ≤ 1) {label : Label} {pc : Nat}
    (h : p.layout.offset name label = .ok pc) :
    Label.among (codeStarts 0 b.instructions p.linked ++ [p.code.length])
      (p.layout.target label) = some (b.number label) := by
  have hoffset := offset_eq_of_count a.links (hmarks label) h
  rw [Label.among, Layout.target_of_offset h, hoffset, Layout.length_code a.encodes,
    idxOf?_codeStarts a.links]
  rfl

/-- A branch of the code goes to a label that has an offset. -/
theorem exists_offset (a : b.Assembled name l p) {op : Opcode} {target : Label}
    (h : .jump op target ∈ b.instructions) : ∃ pc, p.layout.offset name target = .ok pc := by
  obtain ⟨k, hk, hlinks⟩ := exists_of_mem_left a.links h
  obtain rfl : k = .jump op target := hlinks
  obtain ⟨parts, hparts, -⟩ := Layout.code_ok a.encodes
  obtain ⟨n, hn⟩ := List.mem_iff_getElem?.1 hk
  have hmem : (0 + codeSize (p.linked.take n), Linked.jump op target) ∈ withOffsets 0 p.linked := by
    refine List.mem_of_getElem? (i := n) ?_
    rw [getElem?_withOffsets, hn]
    rfl
  obtain ⟨part, -, hpart⟩ := exists_of_mem_left hparts hmem
  rw [Linked.bytes] at hpart
  split at hpart
  · rename_i destination hdestination
    exact ⟨destination, hdestination⟩
  · cases hpart

/-- The rows of the exception table are read as the entries. -/
theorem toEnd_rows (a : b.Assembled name l p) (position : Nat) :
    ∃ items, Reader.toEnd (fun _ => Reader.handler l.pool.table.toList)
        ⟨p.rows.flatten, position⟩ = .ok items ∧
      items.map Prod.snd = b.handlers.map fun e => ⟨p.layout.target e.start,
        p.layout.target e.stop, p.layout.target e.handler, e.catches⟩ := by
  have hall := a.handlers
  generalize p.rows = rows at hall
  generalize b.handlers = handlers at hall
  induction hall generalizing position with
  | nil => exact ⟨[], Reader.toEnd_nil _ _, rfl⟩
  | @cons e row handlers rows hrow _ ih =>
    obtain ⟨items, hitems, hsnd⟩ := ih (position + row.length)
    obtain ⟨start, stop, handler, caught, hstart, hstop, hhandler, hcaught, rfl⟩ := hrow
    refine ⟨_ :: items, Reader.toEnd_append ?_ (List.cons_ne_nil _ _) hitems, by
      rw [List.map_cons, hsnd]; rfl⟩
    rw [Layout.target_of_offset hstart, Layout.target_of_offset hstop,
      Layout.target_of_offset hhandler]
    exact Reader.reads_handler (a.offset_lt hstart) (a.offset_lt hstop) (a.offset_lt hhandler)
      hcaught

/-- The code array is read as the instructions that produce code, at their offsets. -/
theorem toEnd_code (a : b.Assembled name l p) (hcount : l.bootstraps.toList.length < 65536)
    (hforms : ∀ i ∈ b.instructions, i.IsRegular) :
    ∃ decoded, Reader.toEnd (Reader.instruction l.pool.table.toList l.bootstraps.toList)
        ⟨p.code, 0⟩ = .ok decoded ∧
      decoded.map Prod.fst = codeStarts 0 b.instructions p.linked ∧
        decoded.map Prod.snd = b.code.map (Instruction.listed p.layout.target) := by
  obtain ⟨parts, hparts, hcode⟩ := Layout.code_ok a.encodes
  have hdecoded := Reader.toEnd_linked hcount a.links hforms hparts
  rw [← hcode] at hdecoded
  have hlength : (codeStarts 0 b.instructions p.linked).length =
      ((b.instructions.filter Instruction.isCode).map
        (Instruction.listed p.layout.target)).length := by
    rw [List.length_map, length_codeStarts 0 a.links]
  exact ⟨_, hdecoded, List.map_fst_zip hlength.le, List.map_snd_zip hlength.ge⟩

/-- The disassembly of an assembled body lists the body. -/
theorem disassemble_eq (a : b.Assembled name l p) {linked : List Instruction} (hl : l.Holds linked)
    (hcount : l.bootstraps.toList.length < 65536)
    (harguments : ∀ entry ∈ l.bootstraps.toList, entry.arguments.length < 65536)
    (hforms : ∀ i ∈ b.instructions, i.IsRegular)
    (hmarks : ∀ label, b.instructions.count (.mark label) ≤ 1) :
    disassemble l.poolBytes l.tableBytes p.code p.rows.flatten =
      some (b.listing (p.layout.placed.toList.map Prod.fst)) := by
  have hpool : Reader.within l.poolBytes Reader.constants = .ok l.pool.table.toList := by
    have hwithin := Reader.within_of_reads (Reader.reads_constants hl.pool.fits) []
    rwa [List.append_nil] at hwithin
  have htable : Reader.within l.tableBytes Reader.bootstraps = .ok l.bootstraps.toList := by
    have hwithin := Reader.within_of_reads (hl.reads_bootstraps hcount harguments) []
    rwa [List.append_nil] at hwithin
  obtain ⟨decoded, hdecoded, hstarts, hlisted⟩ := a.toEnd_code hcount hforms
  obtain ⟨items, hitems, hentries⟩ := a.toEnd_rows 0
  refine disassemble_eq_some hpool htable hdecoded hitems ?_ ?_ ?_ <;> rw [b.starts_listing p]
  · exact hstarts
  · refine mapM_snd_eq_some hlisted fun i hi => Instruction.retarget_listed ?_
    rintro op target rfl
    obtain ⟨pc, hpc⟩ := a.exists_offset (List.mem_of_mem_filter hi)
    exact a.number_eq hmarks hpc
  · refine mapM_snd_eq_some hentries fun e he => ?_
    obtain ⟨_, -, start, stop, handler, _, hstart, hstop, hhandler, -⟩ :=
      exists_of_mem_left a.handlers he
    rw [ExceptionEntry.retarget, a.number_eq hmarks hstart, a.number_eq hmarks hstop,
      a.number_eq hmarks hhandler]
    rfl

end MethodBody.Assembled

theorem Instruction.IsEmitted.isRegular {i : Instruction} (h : i.IsEmitted) : i.IsRegular := by
  cases i with
  | plain op =>
    cases op <;> first
      | exact ⟨rfl, by decide⟩
      | cases h
  | _ => exact h

structure MethodBody.IsRegular (b : MethodBody) : Prop where
  forms : ∀ i ∈ b.instructions, i.IsRegular
  marks : ∀ label, b.instructions.count (.mark label) ≤ 1

/-- The code is as long as the layout says, and with the tables of the class it lists the body. -/
structure MethodBody.IsListed (b : MethodBody) (l : Linker) (p : CodeParts) : Prop where
  length : p.code.length = p.layout.size
  listing : disassemble l.poolBytes l.tableBytes p.code p.rows.flatten =
    some (b.listing (p.layout.placed.toList.map Prod.fst))

/-- The bootstrap table is written with as many arguments as the call sites have. -/
theorem ClassFile.length_arguments_lt {c : ClassFile} {l : Linker} (hl : l.Holds c.instructions)
    {bound : Nat} (h : ∀ x ∈ c.bootstraps, x.2.length < bound) {entry : Bootstrap}
    (hentry : entry ∈ l.bootstraps.toList) : entry.arguments.length < bound := by
  obtain ⟨x, hx, -, harguments⟩ := exists_of_mem_left hl.bootstraps hentry
  rw [harguments.length_eq]
  exact h x (List.mem_eraseDups.1 hx)

/-- Assembled code is the symbolic code: with the pool and the bootstrap table that are written, the
code array and the exception table of each regular method list the body of the method. -/
theorem ClassFile.bytes_list_bodies {c : ClassFile} {bytes : List UInt8} (h : c.bytes = .ok bytes)
    (hcount : c.bootstraps.toFinset.card < 65536)
    (harguments : ∀ x ∈ c.bootstraps, x.2.length < 65536) :
    ∃ p l, c.parts {} = .ok p l ∧ bytes = p.bytes c l ∧
      l.IsAttribute "BootstrapMethods" (l.bootstraps.toList ≠ []) (· = l.tableBytes)
        p.bootstraps ∧
      List.Forall₂ (fun (m : Method) (q : MethodParts) =>
        m.body.IsRegular → m.body.IsListed l q.body) c.methods p.methods := by
  obtain ⟨p, l, hparts, rfl⟩ := ClassFile.exists_parts h
  obtain ⟨hl, a⟩ := ClassFile.assembled_parts hparts
  refine ⟨p, l, hparts, rfl, a.bootstraps, a.methods.imp fun m q hm hregular => ⟨?_, ?_⟩⟩
  · rw [Layout.length_code hm.body.encodes, CodeParts.layout, Layout.size_ofList]
  · exact hm.body.disassemble_eq hl ((ClassFile.length_bootstraps hl).trans_lt hcount)
      (fun _ => ClassFile.length_arguments_lt hl harguments) hregular.forms hregular.marks

theorem listed_of_sample : ∃ u, compileUnit {} Sample.unit Sample.script = .ok u ∧
    ∃ p l, u.primary.file.parts {} = .ok p l ∧ u.primary.bytes = p.bytes u.primary.file l ∧
      l.IsAttribute "BootstrapMethods" (l.bootstraps.toList ≠ []) (· = l.tableBytes)
        p.bootstraps ∧
      List.Forall₂ (fun (m : Method) (q : MethodParts) => m.body.IsListed l q.body)
        u.primary.file.methods p.methods := by
  obtain ⟨u, hu⟩ := Sample.compiles
  have hmoderate := moderate_primary hu
  obtain ⟨g, fixed, hconsists⟩ := compileUnit_consists hu
  have hregular : ∀ m ∈ u.primary.file.methods, m.body.IsRegular := fun m hm =>
    ⟨fun i hi => ((hmoderate.bodies m hm).2 i hi).isRegular, (hconsists.ahead hm).count_mark_le⟩
  have hprimary : u.primary ∈ u.classes := List.mem_append_right _ (List.mem_singleton_self _)
  have hcount : u.primary.file.bootstraps.toFinset.card < 65536 := by
    obtain ⟨_, _, -, -, hl, a⟩ := exists_assembled hu hprimary
    exact Nat.lt_succ_of_le (a.bounds hl hmoderate).2.1
  have harguments : ∀ x ∈ u.primary.file.bootstraps, x.2.length < 65536 := fun _ hx =>
    (hmoderate.length_arguments_le hx).trans_lt (by decide)
  obtain ⟨p, l, hparts, hbytes, htable, hall⟩ := ClassFile.bytes_list_bodies
    ((compileUnit_assembles hu).1 _ hprimary) hcount harguments
  refine ⟨u, hu, p, l, hparts, hbytes, htable, ?_⟩
  exact ((List.forall₂_and_left _ _).2 ⟨hregular, hall⟩).imp fun _ _ h => h.2 h.1

end SmalltalkJvm
