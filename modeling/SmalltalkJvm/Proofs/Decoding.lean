import SmalltalkJvm.Proofs.Assembly
import SmalltalkJvm.Proofs.Development

/-! # Decoding code

Code is read back instruction by instruction, as the formats of the virtual machine say, with a
constant pool and a bootstrap table that are read from their bytes too. The short, the one-byte and
the wide access to a variable are one instruction, and so are the two loads of a constant.

What is written for an instruction is read as that instruction.
-/

namespace SmalltalkJvm

namespace Reader

def payload : Nat → Reader Constant
  | 1 => do
    let n ← u16
    let bytes ← take n
    return .utf8 (ModifiedUtf8.decode bytes)
  | 3 => return .integer (← u32).toUInt32.toInt32
  | 7 => return .classRef (← u16)
  | 8 => return .string (← u16)
  | 9 => return .fieldRef (← u16) (← u16)
  | 10 => return .methodRef (← u16) (← u16)
  | 11 => return .interfaceMethodRef (← u16) (← u16)
  | 12 => return .nameAndType (← u16) (← u16)
  | 15 => return .methodHandle (← u8).toUInt8 (← u16)
  | 16 => return .methodType (← u16)
  | 18 => return .invokeDynamic (← u16) (← u16)
  | tag => throw (.unknownTag tag 0)

def constant : Reader Constant := do
  let tag ← u8
  payload tag

/-- The constants of a class behind their count, which is one too many. -/
def constants : Reader (List Constant) := do
  let count ← u16
  times constant (count - 1)

def bootstrap : Reader Bootstrap := do
  let handle ← u16
  return ⟨handle, ← counted u16⟩

def bootstraps : Reader (List Bootstrap) := counted bootstrap

theorem reads_payload {c : Constant} (h : c.Fits) : (payload c.tag.toNat).Reads c.payload c := by
  have htwo {make : Nat → Nat → Constant} {i j : Nat} (h : i < 65536 ∧ j < 65536) :
      (do return make (← u16) (← u16) : Reader Constant).Reads (Word.bytes2 i ++ Word.bytes2 j)
        (make i j) := (reads_u16 h.1).bind ((reads_u16 h.2).andReturn _)
  cases c with
  | utf8 text =>
    have hlength : (ModifiedUtf8.encode text).length < 65536 := by
      rw [ModifiedUtf8.length_encode]
      exact Nat.lt_succ_of_le h
    have htext := (reads_take (ModifiedUtf8.encode text)).andReturn fun bytes =>
      Constant.utf8 (ModifiedUtf8.decode bytes)
    rw [ModifiedUtf8.decode_encode] at htext
    change (payload 1).Reads (Word.bytes2 _ ++ ModifiedUtf8.encode text) _
    rw [payload]
    exact (reads_u16 hlength).bind htext
  | integer value =>
    have hvalue : value.toUInt32.toNat.toUInt32.toInt32 = value := by simp
    have hreads := (reads_u32 value.toUInt32.toNat_lt).andReturn fun n =>
      Constant.integer n.toUInt32.toInt32
    rw [hvalue] at hreads
    exact hreads
  | classRef i => exact (reads_u16 h).andReturn _
  | string i => exact (reads_u16 h).andReturn _
  | methodType i => exact (reads_u16 h).andReturn _
  | fieldRef i j => exact htwo h
  | methodRef i j => exact htwo h
  | interfaceMethodRef i j => exact htwo h
  | nameAndType i j => exact htwo h
  | invokeDynamic i j => exact htwo h
  | methodHandle kind reference =>
    have hkind : kind.toNat.toUInt8 = kind := by simp
    change (payload 15).Reads ([kind] ++ Word.bytes2 reference) _
    rw [payload]
    refine (reads_u8 kind).bind ?_
    rw [hkind]
    exact (reads_u16 h).andReturn _

theorem reads_constant {c : Constant} (h : c.Fits) : constant.Reads c.bytes c :=
  (reads_u8 c.tag).bind (reads_payload h)

theorem reads_constants {p : ConstantPool} (h : ∀ c ∈ p.table.toList, c.Fits) :
    constants.Reads (Word.bytes2 p.count ++ p.bytes) p.table.toList := by
  have hsize : p.count < 65536 := Nat.succ_lt_succ p.size_lt
  have hall : List.Forall₂ constant.Reads (p.table.toList.map Constant.bytes) p.table.toList := by
    rw [List.forall₂_map_left_iff, List.forall₂_same]
    exact fun c hc => reads_constant (h c hc)
  have hlength : p.count - 1 = p.table.toList.length := Array.length_toList.symm
  refine (reads_u16 hsize).bind ?_
  rw [hlength, ConstantPool.bytes, List.flatMap_def]
  exact reads_times_go hall []

theorem reads_bootstrap {b : Bootstrap} (hhandle : b.handle < 65536)
    (hcount : b.arguments.length < 65536) (harguments : ∀ n ∈ b.arguments, n < 65536) :
    bootstrap.Reads b.bytes b := by
  have hall : List.Forall₂ u16.Reads (b.arguments.map Word.bytes2) b.arguments := by
    rw [List.forall₂_map_left_iff, List.forall₂_same]
    exact fun n hn => reads_u16 (harguments n hn)
  have hreads := (reads_u16 hhandle).bind
    (f := fun handle => do return Bootstrap.mk handle (← counted u16))
    ((reads_counted hall rfl hcount).andReturn _)
  rw [← List.flatMap_def, ← List.append_assoc] at hreads
  exact hreads

end Reader

def Linker.tableBytes (l : Linker) : List UInt8 :=
  Word.bytes2 l.bootstraps.toList.length ++ l.bootstraps.toList.flatMap Bootstrap.bytes

def Linker.poolBytes (l : Linker) : List UInt8 := Word.bytes2 l.pool.count ++ l.pool.bytes

theorem ConstantPool.IsArgument.lt {p : ConstantPool} {i : Nat} {a : BootstrapArgument}
    (h : p.IsArgument i a) : i < 65536 := by
  cases a with
  | methodType descriptor =>
    obtain ⟨j, hj, -⟩ := h
    exact (lt_of_get? hj).2.trans (by decide)
  | handle x =>
    obtain ⟨j, hj, -⟩ := h
    exact (lt_of_get? hj).2.trans (by decide)

theorem Linker.Holds.reads_bootstraps {l : Linker} {code : List Instruction} (h : l.Holds code)
    (hcount : l.bootstraps.toList.length < 65536)
    (harguments : ∀ b ∈ l.bootstraps.toList, b.arguments.length < 65536) :
    Reader.bootstraps.Reads l.tableBytes l.bootstraps.toList := by
  have hall : List.Forall₂ Reader.bootstrap.Reads (l.bootstraps.toList.map Bootstrap.bytes)
      l.bootstraps.toList := by
    rw [List.forall₂_map_left_iff, List.forall₂_same]
    intro b hb
    obtain ⟨x, -, ⟨j, hhandle, -⟩, hnumbers⟩ := exists_of_mem_left h.bootstraps hb
    refine Reader.reads_bootstrap ((ConstantPool.lt_of_get? hhandle).2.trans (by decide))
      (harguments b hb) fun n hn => ?_
    obtain ⟨a, -, ha⟩ := exists_of_mem_left hnumbers hn
    exact ha.lt
  have hreads := Reader.reads_counted hall rfl hcount
  rwa [← List.flatMap_def] at hreads

namespace HandleKind

/-- The kinds of method handles by the numbers that a constant has for them. -/
def read? : UInt8 → Option HandleKind
  | 1 => some getField | 2 => some getStatic | 3 => some putField | 4 => some putStatic
  | 5 => some invokeVirtual | 6 => some invokeStatic | 7 => some invokeSpecial
  | 8 => some newInvokeSpecial | 9 => some invokeInterface
  | _ => none

theorem read?_tag (kind : HandleKind) : read? kind.tag = some kind := by cases kind <;> rfl

def memberTag : HandleKind → UInt8
  | getField | getStatic | putField | putStatic => 9
  | invokeInterface => 11
  | _ => 10

end HandleKind

def Constant.member? : Constant → Option (Nat × Nat)
  | fieldRef i j | methodRef i j | interfaceMethodRef i j => some (i, j)
  | _ => none

namespace Constants

variable (constants : List Constant)

/-- The constant with a number; the first has number 1. -/
def find? (n : Nat) : Option Constant := if n = 0 then none else constants[n - 1]?

def text (n : Nat) : Except FormatFault String :=
  match find? constants n with
  | some (.utf8 text) => .ok text
  | _ => .error (.badConstant n)

def className (n : Nat) : Except FormatFault String :=
  match find? constants n with
  | some (.classRef name) => text constants name
  | _ => .error (.badConstant n)

def nameAndType (n : Nat) : Except FormatFault (String × String) :=
  match find? constants n with
  | some (.nameAndType name descriptor) => do
    let name ← text constants name
    let descriptor ← text constants descriptor
    return (name, descriptor)
  | _ => .error (.badConstant n)

def member (tag : UInt8) (n : Nat) : Except FormatFault MemberRef :=
  match find? constants n with
  | some c =>
    match c.member? with
    | some (owner, signature) =>
      if c.tag = tag then do
        let owner ← className constants owner
        let (name, descriptor) ← nameAndType constants signature
        return ⟨owner, name, descriptor⟩
      else .error (.badConstant n)
    | none => .error (.badConstant n)
  | none => .error (.badConstant n)

def handle (n : Nat) : Except FormatFault MethodHandle :=
  match find? constants n with
  | some (.methodHandle tag reference) =>
    match HandleKind.read? tag with
    | some kind => do
      let target ← member constants kind.memberTag reference
      return ⟨kind, target⟩
    | none => .error (.badConstant n)
  | _ => .error (.badConstant n)

def argument (n : Nat) : Except FormatFault BootstrapArgument :=
  match find? constants n with
  | some (.methodType descriptor) => do
    let descriptor ← text constants descriptor
    return .methodType descriptor
  | _ => do
    let handle ← handle constants n
    return .handle handle

def loadable (n : Nat) : Except FormatFault Loadable :=
  match find? constants n with
  | some (.integer value) => .ok (.int value)
  | some (.string text) => do
    let text ← Constants.text constants text
    return .string text
  | _ => .error (.badConstant n)

def callSite (table : List Bootstrap) (n : Nat) : Except FormatFault CallSite :=
  match find? constants n with
  | some (.invokeDynamic place signature) =>
    match table[place]? with
    | some entry => do
      let (name, descriptor) ← nameAndType constants signature
      let bootstrap ← handle constants entry.handle
      let arguments ← entry.arguments.mapM (argument constants)
      return ⟨name, descriptor, bootstrap, arguments⟩
    | none => .error (.badConstant n)
  | _ => .error (.badConstant n)

variable {p : ConstantPool} {n : Nat}

theorem find?_eq (p : ConstantPool) (n : Nat) : find? p.table.toList n = p.get? n := by
  simp [find?, ConstantPool.get?, Numbering.get?, Numbering.toList]

theorem text_eq {t : String} (h : p.IsText n t) : text p.table.toList n = .ok t := by
  rw [text, find?_eq, h]

theorem className_eq {name : String} (h : p.IsClass n name) :
    className p.table.toList n = .ok name := by
  obtain ⟨j, hj, hname⟩ := h
  rw [className, find?_eq, hj]
  exact text_eq hname

theorem nameAndType_eq {name descriptor : String} (h : p.IsNameAndType n name descriptor) :
    nameAndType p.table.toList n = .ok (name, descriptor) := by
  obtain ⟨j, k, hjk, hname, hdescriptor⟩ := h
  rw [nameAndType, find?_eq, hjk]
  dsimp only
  rw [text_eq hname, text_eq hdescriptor]
  rfl

theorem member_eq {make : Nat → Nat → Constant} {tag : UInt8} {m : MemberRef}
    (h : ConstantPool.IsMember make p n m) (htag : ∀ i j, (make i j).tag = tag)
    (hmake : ∀ i j, (make i j).member? = some (i, j)) : member p.table.toList tag n = .ok m := by
  obtain ⟨j, k, hjk, howner, hsignature⟩ := h
  rw [member, find?_eq, hjk]
  dsimp only
  rw [hmake]
  dsimp only
  rw [if_pos (htag j k), className_eq howner, nameAndType_eq hsignature]
  rfl

theorem handle_eq {x : MethodHandle} (h : p.IsHandle n x) : handle p.table.toList n = .ok x := by
  obtain ⟨j, hj, hmember⟩ := h
  obtain ⟨kind, target⟩ := x
  have htarget : member p.table.toList kind.memberTag j = .ok target :=
    member_eq hmember (by cases kind <;> exact fun _ _ => rfl)
      (by cases kind <;> exact fun _ _ => rfl)
  rw [handle, find?_eq, hj]
  dsimp only
  rw [HandleKind.read?_tag]
  dsimp only
  rw [htarget]
  rfl

theorem argument_eq {a : BootstrapArgument} (h : p.IsArgument n a) :
    argument p.table.toList n = .ok a := by
  cases a with
  | methodType descriptor =>
    obtain ⟨j, hj, hdescriptor⟩ := h
    rw [argument, find?_eq, hj]
    dsimp only
    rw [text_eq hdescriptor]
    rfl
  | handle x =>
    have hhandle := handle_eq h
    obtain ⟨j, hj, -⟩ := h
    rw [argument, find?_eq, hj]
    dsimp only
    rw [hhandle]
    rfl

theorem mapM_argument_eq {ns : List Nat} {arguments : List BootstrapArgument}
    (h : List.Forall₂ p.IsArgument ns arguments) :
    ns.mapM (argument p.table.toList) = .ok arguments := by
  induction h with
  | nil => rfl
  | cons hfirst _ ih =>
    rw [List.mapM_cons, argument_eq hfirst, ih]
    rfl

theorem loadable_eq {l : Linker} {value : Loadable} (h : l.Denotes (.constant value) n) :
    loadable l.pool.table.toList n = .ok value := by
  cases value with
  | string text =>
    obtain ⟨j, hj, htext⟩ := h
    rw [loadable, find?_eq, hj]
    dsimp only
    rw [text_eq htext]
    rfl
  | int value =>
    have hget : l.pool.get? n = some (.integer value) := h
    rw [loadable, find?_eq, hget]

theorem callSite_eq {l : Linker} {site : CallSite} (h : l.IsCallSite n site)
    (hcount : l.bootstraps.toList.length < 65536) :
    callSite l.pool.table.toList l.bootstraps.toList n = .ok site := by
  obtain ⟨place, j, entry, hget, hsignature, hentry, hhandle, harguments⟩ := h
  have hplace : place % 65536 = place :=
    Nat.mod_eq_of_lt ((List.getElem?_eq_some_iff.1 hentry).1.trans hcount)
  rw [callSite, find?_eq, hget]
  dsimp only
  rw [hplace, hentry]
  dsimp only
  rw [nameAndType_eq hsignature, handle_eq hhandle, mapM_argument_eq harguments]
  rfl

end Constants

namespace Opcode

/-- The instructions by their numbers, of those that generated code uses. -/
def read? : UInt8 → Option Opcode
  | 0 => some nop | 1 => some aconstNull
  | 2 => some iconstM1 | 3 => some iconst0 | 4 => some iconst1 | 5 => some iconst2
  | 6 => some iconst3 | 7 => some iconst4 | 8 => some iconst5
  | 16 => some bipush | 17 => some sipush | 18 => some ldc | 19 => some ldcW
  | 25 => some aload | 42 => some aload0 | 43 => some aload1 | 44 => some aload2
  | 45 => some aload3
  | 58 => some astore | 75 => some astore0 | 76 => some astore1 | 77 => some astore2
  | 78 => some astore3
  | 87 => some pop | 88 => some pop2 | 89 => some dup | 90 => some dupX1 | 95 => some swap
  | 167 => some goto | 176 => some areturn | 177 => some returnVoid | 178 => some getstatic
  | 182 => some invokevirtual | 183 => some invokespecial | 184 => some invokestatic
  | 185 => some invokeinterface | 186 => some invokedynamic
  | 187 => some new | 191 => some athrow | 192 => some checkcast | 196 => some wide
  | 200 => some gotoW
  | _ => none

theorem read?_byte (op : Opcode) : read? op.byte = some op := by cases op <;> rfl

def slot? : Opcode → Option (Opcode × UInt16)
  | aload0 => some (aload, 0) | aload1 => some (aload, 1)
  | aload2 => some (aload, 2) | aload3 => some (aload, 3)
  | astore0 => some (astore, 0) | astore1 => some (astore, 1)
  | astore2 => some (astore, 2) | astore3 => some (astore, 3)
  | _ => none

end Opcode

namespace Instruction

/-- An access to a variable, whatever its form. -/
def normal : Instruction → Instruction
  | plain op =>
    match op.slot? with
    | some (access, index) => slot access index
    | none => plain op
  | i => i

def relabel (f : Label → Label) : Instruction → Instruction
  | jump op target => jump op (f target)
  | i => i

/-- An instruction as it is read back, with the places of labels. -/
def listed (f : Label → Label) (i : Instruction) : Instruction := i.normal.relabel f

/-- The forms of instructions that have one meaning as code. -/
def IsRegular : Instruction → Prop
  | plain op => op.operandBytes = 0 ∧ op ≠ .wide
  | i => i.IsEmitted

end Instruction

namespace Reader

def signed (range n : Nat) : Int := if 2 * n < range then n else (n : Int) - range

def branch (pc : Nat) (op : Opcode) (distance : Int) : Reader Instruction :=
  match (pc : Int) + distance with
  | .ofNat target => return .jump op ⟨target⟩
  | .negSucc _ => throw (.unknownOpcode op.byte pc)

variable (constants : List Constant) (table : List Bootstrap) (pc : Nat)

def operand (op : Opcode) : Reader Instruction :=
  match op with
  | .bipush => return .push op (Int16.ofInt (signed 256 (← u8)))
  | .sipush => return .push op (Int16.ofInt (signed 65536 (← u16)))
  | .ldc => do
    let n ← u8
    let value ← Constants.loadable constants n
    return .constant value
  | .ldcW => do
    let n ← u16
    let value ← Constants.loadable constants n
    return .constant value
  | .aload | .astore => return .slot op (← u8).toUInt16
  | .wide => do
    let byte ← u8
    match Opcode.read? byte.toUInt8 with
    | some .aload => return .slot .aload (← u16).toUInt16
    | some .astore => return .slot .astore (← u16).toUInt16
    | _ => throw (.unknownOpcode byte.toUInt8 pc)
  | .goto => do
    let distance ← u16
    branch pc op (signed 65536 distance)
  | .gotoW => do
    let distance ← u32
    branch pc op (signed 4294967296 distance)
  | .new | .checkcast => do
    let n ← u16
    let name ← Constants.className constants n
    return .classRef op name
  | .getstatic => do
    let n ← u16
    let member ← Constants.member constants 9 n
    return .field op member
  | .invokevirtual | .invokespecial | .invokestatic => do
    let n ← u16
    let member ← Constants.member constants 10 n
    return .invoke op member
  | .invokeinterface => do
    let n ← u16
    let count ← u8
    let padding ← u8
    let member ← Constants.member constants 11 n
    match MethodDescriptor.parse member.descriptor with
    | .ok descriptor =>
      -- The receiver counts as an argument.
      if count = 1 + descriptor.parameterSlots ∧ padding = 0 then return .invoke op member
      else throw (.badConstant n)
    | .error _ => throw (.badConstant n)
  | .invokedynamic => do
    let n ← u16
    let padding ← u16
    if padding = 0 then do
      let site ← Constants.callSite constants table n
      return .dynamic site
    else throw (.badConstant n)
  | _ => return (Instruction.plain op).normal

def instruction : Reader Instruction := do
  let byte ← u8
  match Opcode.read? byte.toUInt8 with
  | some op => operand constants table pc op
  | none => throw (.unknownOpcode byte.toUInt8 pc)

variable {constants table pc}

theorem reads_instruction {op : Opcode} {bytes : List UInt8} {i : Instruction}
    (h : (operand constants table pc op).Reads bytes i) :
    (instruction constants table pc).Reads (op.byte :: bytes) i := by
  have hbyte : op.byte.toNat.toUInt8 = op.byte := by simp
  change (instruction constants table pc).Reads ([op.byte] ++ bytes) i
  refine (reads_u8 op.byte).bind ?_
  rw [hbyte, Opcode.read?_byte]
  exact h

theorem signed_of_mod {range : Nat} {v : Int} (hlow : -(range : Int) ≤ 2 * v)
    (hhigh : 2 * v < range) : signed range (v % range).toNat = v := by
  have hpos : 0 ≤ v % range := Int.emod_nonneg _ (by omega)
  rw [signed, Int.toNat_of_nonneg hpos]
  by_cases hv : 0 ≤ v
  · have hmod : v % range = v := Int.emod_eq_of_lt hv (by omega)
    rw [hmod, if_pos (by omega)]
  · have hmod : v % range = v + range := by
      rw [← Int.add_emod_right, Int.emod_eq_of_lt (by omega) (by omega)]
    rw [hmod, if_neg (by omega)]
    omega

theorem reads_branch {target : Nat} (op : Opcode) {distance : Int}
    (h : (pc : Int) + distance = target) :
    (branch pc op distance).Reads [] (.jump op ⟨target⟩) := by
  rw [branch, h]
  exact reads_pure _

theorem signed_toUInt16 (value : Int16) : signed 65536 value.toUInt16.toNat = value.toInt := by
  change _ = value.toBitVec.toInt
  rw [BitVec.toInt_eq_toNat_cond]
  rfl

theorem reads_push {op : Opcode} {value : Int16} (h : (Instruction.push op value).IsEmitted)
    {layout : Layout} {method : String} {bytes : List UInt8}
    (hbytes : (Linked.push op value).bytes layout method pc = .ok bytes) :
    (instruction constants table pc).Reads bytes (.push op value) := by
  have hvalue : Int16.ofInt value.toInt = value := by simp
  rcases h with ⟨rfl, hlow, hhigh⟩ | rfl
  · rw [Linked.bytes, if_pos rfl] at hbytes
    cases hbytes
    have hsigned : signed 256 value.toUInt16.toUInt8.toNat = value.toInt := by
      have hshort := signed_toUInt16 value
      have hlt := value.toUInt16.toNat_lt
      rw [UInt16.toNat_toUInt8]
      unfold signed at hshort ⊢
      split_ifs at hshort ⊢ <;> omega
    have hreads := (reads_u8 value.toUInt16.toUInt8).andReturn fun n =>
      Instruction.push .bipush (Int16.ofInt (signed 256 n))
    rw [hsigned, hvalue] at hreads
    exact reads_instruction hreads
  · rw [Linked.bytes, if_neg (by decide)] at hbytes
    cases hbytes
    have hreads := (reads_u16 value.toUInt16.toNat_lt).andReturn fun n =>
      Instruction.push .sipush (Int16.ofInt (signed 65536 n))
    rw [signed_toUInt16, hvalue] at hreads
    exact reads_instruction hreads

variable (constants table pc) in
theorem reads_short (short : Opcode) {op : Opcode} {index : UInt16}
    (h : short.slot? = some (op, index)) :
    (instruction constants table pc).Reads [short.byte] (.slot op index) := by
  refine reads_instruction ?_
  cases short <;> cases h <;> exact reads_pure _

theorem eq_of_toNat_lt_four {index : UInt16} (h : index.toNat < 4) :
    index = 0 ∨ index = 1 ∨ index = 2 ∨ index = 3 := by
  simp only [← UInt16.toNat_inj]
  change _ = 0 ∨ _ = 1 ∨ _ = 2 ∨ _ = 3
  omega

/-- Each of the three forms is read as the access to the variable. -/
theorem reads_slot {op : Opcode} (h : op = .aload ∨ op = .astore) (index : UInt16) :
    (instruction constants table pc).Reads (slotBytes op index) (.slot op index) := by
  unfold slotBytes
  split_ifs with hshort hop hbyte
  · subst hop
    obtain rfl | rfl | rfl | rfl := eq_of_toNat_lt_four hshort
    · exact reads_short constants table pc .astore0 rfl
    · exact reads_short constants table pc .astore1 rfl
    · exact reads_short constants table pc .astore2 rfl
    · exact reads_short constants table pc .astore3 rfl
  · obtain rfl := h.resolve_right hop
    obtain rfl | rfl | rfl | rfl := eq_of_toNat_lt_four hshort
    · exact reads_short constants table pc .aload0 rfl
    · exact reads_short constants table pc .aload1 rfl
    · exact reads_short constants table pc .aload2 rfl
    · exact reads_short constants table pc .aload3 rfl
  · have hindex : index.toUInt8.toNat.toUInt16 = index := by
      rw [UInt16.toNat_toUInt8, Nat.mod_eq_of_lt hbyte]
      simp
    have hreads := (reads_u8 index.toUInt8).andReturn fun n => Instruction.slot op n.toUInt16
    rw [hindex] at hreads
    rcases h with rfl | rfl <;> exact reads_instruction hreads
  · have hindex : index.toNat.toUInt16 = index := by simp
    have hreads := (reads_u16 index.toNat_lt).andReturn fun n => Instruction.slot op n.toUInt16
    rw [hindex] at hreads
    have hwide : (operand constants table pc .wide).Reads (op.byte :: Word.bytes2 index.toNat)
        (.slot op index) := by
      have hopcode : op.byte.toNat.toUInt8 = op.byte := by simp
      change (operand constants table pc .wide).Reads ([op.byte] ++ _) _
      refine (reads_u8 op.byte).bind ?_
      rw [hopcode, Opcode.read?_byte]
      rcases h with rfl | rfl <;> exact hreads
    exact reads_instruction hwide

theorem reads_load {l : Linker} {value : Loadable} {n : Nat} (h : l.Denotes (.constant value) n)
    {layout : Layout} {method : String} {bytes : List UInt8}
    (hbytes : (Linked.constant n).bytes layout method pc = .ok bytes) :
    (instruction l.pool.table.toList table pc).Reads bytes (.constant value) := by
  have hvalue : ((liftM (Constants.loadable l.pool.table.toList n) : Reader Loadable) >>=
      fun value => pure (.constant value)).Reads [] (Instruction.constant value) :=
    .known (Constants.loadable_eq h) (reads_pure _)
  have hlt : n < 65536 := by
    cases value with
    | string text =>
      obtain ⟨j, hj, -⟩ := h
      exact (ConstantPool.lt_of_get? hj).2.trans (by decide)
    | int value => exact (ConstantPool.lt_of_get? h).2.trans (by decide)
  rw [Linked.bytes] at hbytes
  split_ifs at hbytes with hsmall <;> cases hbytes
  · have hindex : n.toUInt8.toNat = n := UInt8.toNat_ofNat_of_lt' hsmall
    have hreads := reads_u8 n.toUInt8
    rw [hindex] at hreads
    exact reads_instruction (hreads.bind hvalue)
  · exact reads_instruction ((reads_u16 hlt).bind hvalue)

theorem reads_interfaceCall {l : Linker} {member : MemberRef} {n : Nat}
    (h : ConstantPool.IsMember .interfaceMethodRef l.pool n member)
    (hslots : ∀ d, MethodDescriptor.parse member.descriptor = .ok d → d.parameterSlots < 255)
    {layout : Layout} {method : String} {bytes : List UInt8}
    (hbytes : (Linked.interfaceCall n member.descriptor).bytes layout method pc = .ok bytes) :
    (instruction l.pool.table.toList table pc).Reads bytes (.invoke .invokeinterface member) := by
  rw [Linked.bytes] at hbytes
  split at hbytes
  · rename_i descriptor hparse
    cases hbytes
    have hfew := hslots descriptor hparse
    have hcount : (1 + descriptor.parameterSlots).toUInt8.toNat = 1 + descriptor.parameterSlots :=
      UInt8.toNat_ofNat_of_lt' (show _ < 256 by omega)
    have hmember := Constants.member_eq h (fun _ _ => rfl) fun _ _ => rfl
    refine reads_instruction ((reads_u16 h.lt).bind ((reads_u8 _).bind ((reads_u8 0).bind
      (.known hmember ?_))))
    rw [hparse, hcount]
    dsimp only
    rw [if_pos ⟨rfl, rfl⟩]
    exact reads_pure _
  · cases hbytes

theorem reads_callSite {l : Linker} {site : CallSite} {n : Nat} (h : l.IsCallSite n site)
    (hcount : l.bootstraps.toList.length < 65536) {layout : Layout} {method : String}
    {bytes : List UInt8} (hbytes : (Linked.dynamic n).bytes layout method pc = .ok bytes) :
    (instruction l.pool.table.toList l.bootstraps.toList pc).Reads bytes (.dynamic site) := by
  have hsite := Constants.callSite_eq h hcount
  obtain ⟨place, j, entry, hget, -⟩ := h
  have hlt : n < 65536 := (ConstantPool.lt_of_get? hget).2.trans (by decide)
  cases hbytes
  refine reads_instruction ((reads_u16 hlt).bind ((reads_u16 (n := 0) (by decide)).bind ?_))
  rw [if_pos rfl]
  exact .known hsite (reads_pure _)

end Reader

def Layout.target (layout : Layout) (label : Label) : Label := ⟨layout.labels[label]?.getD 0⟩

theorem Layout.target_of_offset {layout : Layout} {method : String} {label : Label} {pc : Nat}
    (h : layout.offset method label = .ok pc) : layout.target label = ⟨pc⟩ := by
  unfold offset at h
  split at h
  · rename_i found hfound
    cases h
    rw [target, hfound]
    rfl
  · cases h

namespace Reader

theorem reads_jump {constants : List Constant} {table : List Bootstrap} {pc : Nat} {target : Label}
    {layout : Layout} {method : String} {bytes : List UInt8}
    (hbytes : (Linked.jump .goto target).bytes layout method pc = .ok bytes) :
    (instruction constants table pc).Reads bytes (.jump .goto (layout.target target)) := by
  rw [Linked.bytes] at hbytes
  split at hbytes
  · rename_i destination hoffset
    dsimp only at hbytes
    split_ifs at hbytes with hrange
    cases hbytes
    rw [Layout.target_of_offset hoffset]
    have hdistance : signed 65536 (((destination : Int) - pc) % 65536).toNat = destination - pc :=
      signed_of_mod (by omega) (by omega)
    have hlt : (((destination : Int) - pc) % 65536).toNat < 65536 := by omega
    have hbranch : (branch pc .goto (destination - pc)).Reads [] (.jump .goto ⟨destination⟩) :=
      reads_branch .goto (by omega)
    rw [← hdistance] at hbranch
    exact reads_instruction ((reads_u16 hlt).bind hbranch)
  · cases hbytes

/-- What is written for an instruction is read as that instruction. -/
theorem reads_linked {l : Linker} (hcount : l.bootstraps.toList.length < 65536)
    {i : Instruction} {k : Linked} (hlinks : i.LinksTo l.Denotes k) (hform : i.IsRegular)
    (hcode : i.isCode = true) {layout : Layout} {method : String} {pc : Nat} {bytes : List UInt8}
    (hbytes : k.bytes layout method pc = .ok bytes) :
    (instruction l.pool.table.toList l.bootstraps.toList pc).Reads bytes
      (i.listed layout.target) := by
  cases i with
  | plain op =>
    cases hlinks
    cases hbytes
    refine reads_instruction ?_
    obtain ⟨hnone, hwide⟩ := hform
    cases op <;> first | exact reads_pure _ | exact absurd rfl hwide | cases hnone
  | push op value =>
    cases hlinks
    exact reads_push hform hbytes
  | constant value =>
    obtain ⟨n, hn, rfl⟩ := hlinks
    exact reads_load hn hbytes
  | slot op index =>
    cases hlinks
    cases hbytes
    exact reads_slot hform index
  | classRef op name =>
    obtain ⟨n, hn, rfl⟩ := hlinks
    cases hbytes
    have hname := Constants.className_eq hn
    rcases hform with rfl | rfl
    · exact reads_instruction ((reads_u16 hn.lt).bind (.known hname (reads_pure _)))
    · exact reads_instruction ((reads_u16 hn.lt).bind (.known hname (reads_pure _)))
  | field op member =>
    obtain ⟨n, hn, rfl⟩ := hlinks
    obtain rfl : op = .getstatic := hform
    cases hbytes
    have hmember := Constants.member_eq hn (fun _ _ => rfl) fun _ _ => rfl
    exact reads_instruction ((reads_u16 hn.lt).bind (.known hmember (reads_pure _)))
  | invoke op member =>
    rcases hlinks with ⟨rfl, n, hn, rfl⟩ | ⟨hop, n, hn, rfl⟩
    · obtain h | h | h | ⟨-, hslots⟩ := hform
      · cases h
      · cases h
      · cases h
      · exact reads_interfaceCall hn hslots hbytes
    · cases hbytes
      have hmember := Constants.member_eq hn (fun _ _ => rfl) fun _ _ => rfl
      obtain rfl | rfl | rfl | ⟨rfl, -⟩ := hform
      · exact reads_instruction ((reads_u16 hn.lt).bind (.known hmember (reads_pure _)))
      · exact reads_instruction ((reads_u16 hn.lt).bind (.known hmember (reads_pure _)))
      · exact reads_instruction ((reads_u16 hn.lt).bind (.known hmember (reads_pure _)))
      · exact absurd rfl hop
  | dynamic site =>
    obtain ⟨n, hn, rfl⟩ := hlinks
    exact reads_callSite hn hcount hbytes
  | jump op target =>
    cases hlinks
    obtain rfl : op = .goto := hform
    exact reads_jump hbytes
  | mark | line => cases hcode

end Reader

end SmalltalkJvm
