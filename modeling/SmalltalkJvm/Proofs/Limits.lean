import Mathlib.Algebra.Order.BigOperators.Group.List
import Mathlib.Algebra.Order.Ring.Nat
import Mathlib.Data.List.Perm.Subperm
import Mathlib.Data.String.Basic
import SmalltalkJvm.Proofs.Linkage
import SmalltalkJvm.Proofs.Offsets

/-! # Classes within the limits of the format

A class can be written if its texts are short, its pool has room for all that its methods ask for,
and in each method the code is neither empty nor long, the labels in use are placed, the lines are
small and the descriptors of interface calls are well formed. All of this is decidable.
-/

namespace SmalltalkJvm

section

variable {σ α β : Type} {used : σ → Nat}

/-- An action that succeeds while there is room for some more constants, and uses no more room than
that. -/
def Spends (used : σ → Nat) (x : EStateM AssemblyFault σ α) (n : Nat) : Prop :=
  ∀ s, used s + n < 65535 → ∃ a s', x s = .ok a s' ∧ used s' ≤ used s + n

theorem Spends.mono {x : EStateM AssemblyFault σ α} {m n : Nat} (h : Spends used x m)
    (hmn : m ≤ n) : Spends used x n := by
  intro s hs
  obtain ⟨a, s', hok, hle⟩ := h s (by omega)
  exact ⟨a, s', hok, by omega⟩

theorem spends_pure (a : α) (n : Nat) : Spends used (pure a) n :=
  fun s _ => ⟨a, s, rfl, Nat.le_add_right _ _⟩

/-- What follows may rely on the first action having succeeded. -/
theorem Spends.bind {x : EStateM AssemblyFault σ α} {f : α → EStateM AssemblyFault σ β} {m n : Nat}
    (hx : Spends used x m) (hf : ∀ a s s', x s = .ok a s' → Spends used (f a) n) :
    Spends used (x >>= f) (m + n) := by
  intro s hs
  obtain ⟨a, s₁, hok, hle⟩ := hx s (by omega)
  obtain ⟨b, s₂, hok', hle'⟩ := hf a s s₁ hok s₁ (by omega)
  refine ⟨b, s₂, ?_, by omega⟩
  rw [bind_of_ok hok, hok']

theorem Spends.map {x : EStateM AssemblyFault σ α} {n : Nat} (hx : Spends used x n) (f : α → β) :
    Spends used (x >>= fun a => pure (f a)) n :=
  hx.bind (n := 0) fun _ _ _ _ => spends_pure _ 0

theorem Spends.mapM {xs : List α} {f : α → EStateM AssemblyFault σ β} {cost : α → Nat}
    (h : ∀ x ∈ xs, Spends used (f x) (cost x)) : Spends used (xs.mapM f) (xs.map cost).sum := by
  induction xs with
  | nil => exact spends_pure _ _
  | cons x xs ih =>
    obtain ⟨hx, hxs⟩ := List.forall_mem_cons.1 h
    rw [List.mapM_cons, List.map_cons, List.sum_cons]
    exact hx.bind fun _ _ _ _ => (ih hxs).map _

end

theorem mapM_ok {σ α β : Type} {f : α → EStateM AssemblyFault σ β} {xs : List α} {ys : List β}
    {s s' : σ} (h : xs.mapM f s = .ok ys s') :
    List.Forall₂ (fun x y => ∃ s₁ s₂, f x s₁ = .ok y s₂) xs ys := by
  induction xs generalizing ys s with
  | nil =>
    cases h
    exact .nil
  | cons x xs ih =>
    rw [List.mapM_cons] at h
    obtain ⟨y, s₁, hy, h⟩ := bind_ok h
    obtain ⟨rest, s₂, hrest, h⟩ := bind_ok h
    cases h
    exact .cons ⟨s, s₁, hy⟩ (ih hrest)

def Short (texts : List String) : Prop := ∀ text ∈ texts, ModifiedUtf8.size text ≤ 65535

instance (texts : List String) : Decidable (Short texts) :=
  inferInstanceAs (Decidable (∀ text ∈ texts, _))

theorem short_cons {text : String} {texts : List String} :
    Short (text :: texts) ↔ ModifiedUtf8.size text ≤ 65535 ∧ Short texts :=
  List.forall_mem_cons

theorem short_append {texts texts' : List String} :
    Short (texts ++ texts') ↔ Short texts ∧ Short texts' :=
  List.forall_mem_append

theorem unitSize_le (u : Nat) : ModifiedUtf8.unitSize u ≤ 3 := by
  unfold ModifiedUtf8.unitSize
  split_ifs <;> omega

/-- A character takes at most the six bytes of two units. -/
theorem size_le_length (text : String) : ModifiedUtf8.size text ≤ 6 * text.length := by
  have hunits (us : List Nat) (n : Nat) :
      us.foldl (fun n u => n + ModifiedUtf8.unitSize u) n ≤ n + 3 * us.length := by
    induction us generalizing n with
    | nil => simp
    | cons u us ih =>
      have := ih (n + ModifiedUtf8.unitSize u)
      have := unitSize_le u
      simp only [List.foldl_cons, List.length_cons]
      omega
  have hchars (cs : List Char) : (cs.flatMap ModifiedUtf8.charUnits).length ≤ 2 * cs.length := by
    induction cs with
    | nil => simp
    | cons c cs ih =>
      have : (ModifiedUtf8.charUnits c).length ≤ 2 := by
        unfold ModifiedUtf8.charUnits
        split_ifs <;> simp
      simp only [List.flatMap_cons, List.length_append, List.length_cons]
      omega
  have h := hunits (ModifiedUtf8.units text) 0
  have h' := hchars text.toList
  rw [String.length_toList] at h'
  simp only [ModifiedUtf8.size, ModifiedUtf8.units] at h ⊢
  omega

/-- A check by the bytes of a text. -/
theorem short_of_bytes {texts : List String} (h : ∀ text ∈ texts, 6 * text.utf8ByteSize ≤ 65535) :
    Short texts := by
  intro text htext
  have hbytes := h text htext
  have hsize := size_le_length text
  have hchars (cs : List Char) : cs.length ≤ String.utf8Len cs := by
    induction cs with
    | nil => simp
    | cons c cs ih =>
      have := c.utf8Size_pos
      simp only [List.length_cons, String.utf8Len_cons]
      omega
  have hlength := hchars text.toList
  rw [← String.utf8ByteSize_ofList, String.ofList_toList, String.length_toList] at hlength
  omega

theorem Short.of_mem_flatMap {α : Type} {f : α → List String} {xs : List α} {x : α}
    (h : Short (xs.flatMap f)) (hx : x ∈ xs) : Short (f x) :=
  fun text htext => h text (List.mem_flatMap.2 ⟨x, hx, htext⟩)

def MemberRef.texts (m : MemberRef) : List String := [m.owner, m.name, m.descriptor]

namespace ConstantPool

def used (p : ConstantPool) : Nat := p.table.size

theorem spends_intern (c : Constant) : Spends used (intern c) 1 := by
  rintro ⟨table, size_lt⟩ hroom
  simp only [intern]
  split
  · exact ⟨_, _, rfl, Nat.le_add_right _ _⟩
  · have hlt : table.size + 1 < 65535 := hroom
    rw [dif_pos hlt]
    exact ⟨_, _, rfl, by simp [used]⟩

theorem spends_utf8 {text : String} (h : ModifiedUtf8.size text ≤ 65535) :
    Spends used (utf8 text) 1 := by
  rw [utf8, if_pos h]
  exact spends_intern _

theorem spends_classRef {name : String} (h : ModifiedUtf8.size name ≤ 65535) :
    Spends used (classRef name) 2 :=
  (spends_utf8 h).bind fun _ _ _ _ => spends_intern _

theorem spends_string {text : String} (h : ModifiedUtf8.size text ≤ 65535) :
    Spends used (string text) 2 :=
  (spends_utf8 h).bind fun _ _ _ _ => spends_intern _

theorem spends_methodType {descriptor : String} (h : ModifiedUtf8.size descriptor ≤ 65535) :
    Spends used (methodType descriptor) 2 :=
  (spends_utf8 h).bind fun _ _ _ _ => spends_intern _

theorem spends_nameAndType {name descriptor : String} (hname : ModifiedUtf8.size name ≤ 65535)
    (hdescriptor : ModifiedUtf8.size descriptor ≤ 65535) :
    Spends used (nameAndType name descriptor) 3 :=
  (spends_utf8 hname).bind fun _ _ _ _ =>
    (spends_utf8 hdescriptor).bind fun _ _ _ _ => spends_intern _

/-- Fields and methods differ only in the kind of their constant. -/
theorem spends_member {m : MemberRef} (h : Short m.texts) (make : Nat → Nat → Constant) :
    Spends used (do
      let owner ← classRef m.owner
      let nameAndType ← nameAndType m.name m.descriptor
      intern (make owner nameAndType)) 6 := by
  simp only [MemberRef.texts, short_cons] at h
  exact (spends_classRef h.1).bind fun _ _ _ _ =>
    (spends_nameAndType h.2.1 h.2.2.1).bind fun _ _ _ _ => spends_intern _

theorem spends_handle {x : MethodHandle} (h : Short x.target.texts) :
    Spends used (handle x) 7 := by
  unfold handle
  split
  · exact (spends_member h .fieldRef).bind fun _ _ _ _ => spends_intern _
  · exact (spends_member h .fieldRef).bind fun _ _ _ _ => spends_intern _
  · exact (spends_member h .fieldRef).bind fun _ _ _ _ => spends_intern _
  · exact (spends_member h .fieldRef).bind fun _ _ _ _ => spends_intern _
  · exact (spends_member h .interfaceMethodRef).bind fun _ _ _ _ => spends_intern _
  · exact (spends_member h .methodRef).bind fun _ _ _ _ => spends_intern _

theorem spends_invokeDynamic {bootstrap : Nat} {name descriptor : String}
    (hname : ModifiedUtf8.size name ≤ 65535) (hdescriptor : ModifiedUtf8.size descriptor ≤ 65535) :
    Spends used (invokeDynamic bootstrap name descriptor) 4 :=
  (spends_nameAndType hname hdescriptor).bind fun _ _ _ _ => spends_intern _

end ConstantPool

namespace Link

def used (l : Linker) : Nat := l.pool.used

theorem spends_ofRequest {α : Type} {r : ConstantPool.Request α} {n : Nat}
    (h : Spends ConstantPool.used r n) : Spends used (ofRequest r) n := by
  rintro ⟨pool, bootstraps⟩ hroom
  obtain ⟨a, pool', hok, hle⟩ := h pool hroom
  exact ⟨a, ⟨pool', bootstraps⟩, by simp only [ofRequest, hok], hle⟩

theorem spends_bootstrapIndex (entry : Bootstrap) : Spends used (bootstrapIndex entry) 0 := by
  rintro ⟨pool, bootstraps⟩ -
  simp only [bootstrapIndex]
  split
  · exact ⟨_, _, rfl, Nat.le_refl _⟩
  · exact ⟨_, _, rfl, Nat.le_refl _⟩

end Link

def BootstrapArgument.texts : BootstrapArgument → List String
  | .methodType descriptor => [descriptor]
  | .handle x => x.target.texts

def CallSite.texts (site : CallSite) : List String :=
  site.name :: site.descriptor :: site.bootstrap.target.texts ++
    site.arguments.flatMap BootstrapArgument.texts

def Instruction.texts : Instruction → List String
  | .constant (.string text) => [text]
  | .classRef _ name => [name]
  | .field _ member | .invoke _ member => member.texts
  | .dynamic site => site.texts
  | _ => []

theorem sum_map_mul {α : Type} (n : Nat) (texts : α → List String) (xs : List α) :
    (xs.map fun x => n * (texts x).length).sum = n * (xs.flatMap texts).length := by
  induction xs with
  | nil => rfl
  | cons x xs ih => simp [ih, Nat.mul_add]

/-- A constant for each text, with at most two more that refer to it. -/
theorem Link.spends_argument {a : BootstrapArgument} (h : Short a.texts) :
    Spends Link.used (Link.ofRequest (Link.argument a)) (3 * a.texts.length) := by
  cases a with
  | methodType descriptor =>
    exact (Link.spends_ofRequest (ConstantPool.spends_methodType (short_cons.1 h).1)).mono
      (by simp [BootstrapArgument.texts])
  | handle x =>
    exact (Link.spends_ofRequest (ConstantPool.spends_handle h)).mono
      (by simp [BootstrapArgument.texts, MemberRef.texts])

theorem Link.spends_callSite {site : CallSite} (h : Short site.texts) :
    Spends Link.used (Link.callSite site) (3 * site.texts.length) := by
  obtain ⟨hname, hdescriptor, h⟩ := by
    simpa only [CallSite.texts, List.cons_append, short_cons] using h
  obtain ⟨hhandle, harguments⟩ := short_append.1 h
  have hall : Spends used (site.arguments.mapM fun a => ofRequest (argument a))
      (site.arguments.map fun a => 3 * a.texts.length).sum :=
    Spends.mapM fun a ha => spends_argument (harguments.of_mem_flatMap ha)
  have hspends : Spends used (callSite site)
      (7 + ((site.arguments.map fun a => 3 * a.texts.length).sum + (0 + 4))) :=
    (spends_ofRequest (ConstantPool.spends_handle hhandle)).bind fun _ _ _ _ =>
      hall.bind fun _ _ _ _ => (spends_bootstrapIndex _).bind fun _ _ _ _ =>
        spends_ofRequest (ConstantPool.spends_invokeDynamic hname hdescriptor)
  refine hspends.mono ?_
  rw [sum_map_mul]
  simp [CallSite.texts, MemberRef.texts]
  omega

theorem Instruction.spends_link {i : Instruction} (h : Short i.texts) :
    Spends Link.used i.link (3 * i.texts.length + 1) := by
  cases i with
  | plain op | push op value | slot op index | jump op target | mark label | line number =>
    exact spends_pure _ _
  | constant value =>
    cases value with
    | string text =>
      exact ((Link.spends_ofRequest (ConstantPool.spends_string (short_cons.1 h).1)).map _).mono
        (by simp [texts])
    | int value =>
      exact ((Link.spends_ofRequest (ConstantPool.spends_intern _)).map _).mono (by simp [texts])
  | classRef op name =>
    exact ((Link.spends_ofRequest (ConstantPool.spends_classRef (short_cons.1 h).1)).map _).mono
      (by simp [texts])
  | field op member =>
    exact ((Link.spends_ofRequest (ConstantPool.spends_member h .fieldRef)).map _).mono
      (by simp [texts, MemberRef.texts])
  | invoke op member =>
    simp only [link]
    split_ifs
    · exact ((Link.spends_ofRequest (ConstantPool.spends_member h .interfaceMethodRef)).map _).mono
        (by simp [texts, MemberRef.texts])
    · exact ((Link.spends_ofRequest (ConstantPool.spends_member h .methodRef)).map _).mono
        (by simp [texts, MemberRef.texts])
  | dynamic site => exact ((Link.spends_callSite h).map _).mono (Nat.le_succ _)

def Instruction.Placed (code : List Instruction) : Instruction → Prop
  | .jump _ target => .mark target ∈ code
  | .line number => number ≤ AssemblyFault.limit
  | .invoke op member =>
    op = .invokeinterface → (MethodDescriptor.parse member.descriptor).isOk = true
  | _ => True

instance (code : List Instruction) (i : Instruction) : Decidable (i.Placed code) := by
  unfold Instruction.Placed
  split <;> infer_instance

namespace Instruction

variable {R : Operand → Nat → Prop} {i : Instruction} {k : Linked}

theorem LinksTo.size_range (h : i.LinksTo R k) :
    if i.isCode then 0 < k.size ∧ k.size ≤ 5 else k.size = 0 := by
  cases i with
  | plain op | jump op target | mark label | line number =>
    cases h
    simp [Linked.size, isCode]
  | push op value | slot op index =>
    cases h
    simp only [Linked.size, isCode]
    split_ifs <;> simp
  | constant value =>
    obtain ⟨n, -, rfl⟩ := h
    simp only [Linked.size, isCode]
    split_ifs <;> simp
  | classRef op name | field op name | dynamic site =>
    obtain ⟨n, -, rfl⟩ := h
    simp [Linked.size, isCode]
  | invoke op member =>
    obtain ⟨-, n, -, rfl⟩ | ⟨-, n, -, rfl⟩ := h <;> simp [Linked.size, isCode]

theorem LinksTo.size_eq_zero (h : i.LinksTo R k) (hi : i.isCode = false) : k.size = 0 := by
  have hsize := h.size_range
  rw [hi] at hsize
  exact hsize

theorem LinksTo.size_pos (h : i.LinksTo R k) (hi : i.isCode = true) : 0 < k.size := by
  have hsize := h.size_range
  rw [hi] at hsize
  exact hsize.1

theorem LinksTo.eq_mark {label : Label} (h : i.LinksTo R (.mark label)) : i = .mark label := by
  cases i with
  | plain | push | slot | jump | line => cases h
  | mark other =>
    cases h
    rfl
  | constant | classRef | field | dynamic =>
    obtain ⟨n, -, h⟩ := h
    cases h
  | invoke op member => obtain ⟨-, n, -, h⟩ | ⟨-, n, -, h⟩ := h <;> cases h

theorem mark_mem_of_linksTo {code : List Instruction} {linked : List Linked} {label : Label}
    (h : List.Forall₂ (LinksTo R) code linked) (hmem : .mark label ∈ code) :
    .mark label ∈ linked := by
  obtain ⟨k, hk, hlinks⟩ := exists_of_mem_left h hmem
  rwa [show k = .mark label from hlinks] at hk

theorem codeSize_le_of_linksTo {code : List Instruction} {linked : List Linked}
    (h : List.Forall₂ (LinksTo R) code linked) :
    codeSize linked ≤ 5 * (code.filter isCode).length := by
  induction h with
  | nil => simp
  | cons hik rest ih =>
    have hsize := hik.size_range
    rw [codeSize_cons, List.filter_cons]
    split_ifs at hsize ⊢
    · simp only [List.length_cons]
      omega
    · omega

theorem codeSize_pos_of_linksTo {code : List Instruction} {linked : List Linked}
    (h : List.Forall₂ (LinksTo R) code linked) (hcode : code.filter isCode ≠ []) :
    0 < codeSize linked := by
  obtain ⟨i, hi⟩ := List.exists_mem_of_ne_nil _ hcode
  obtain ⟨hi, hisCode⟩ := List.mem_filter.1 hi
  obtain ⟨k, hk, hlinks⟩ := exists_of_mem_left h hi
  obtain ⟨before, after, rfl⟩ := List.append_of_mem hk
  have hsize := hlinks.size_range
  rw [if_pos hisCode] at hsize
  simp
  omega

/-- Code of less than 32768 bytes has no branch that is too long. -/
theorem exists_bytes {code : List Instruction} {linked : List Linked} {method : String} {pc : Nat}
    (h : List.Forall₂ (LinksTo R) code linked) (hsize : codeSize linked ≤ 32767)
    (hi : i.Placed code) (hik : i.LinksTo R k) (hpc : pc ≤ codeSize linked) :
    ∃ bytes, k.bytes (Layout.ofList linked) method pc = .ok bytes := by
  cases i with
  | plain op | slot op index | mark label =>
    cases hik
    exact ⟨_, rfl⟩
  | push op value =>
    cases hik
    simp only [Linked.bytes]
    split_ifs <;> exact ⟨_, rfl⟩
  | constant value =>
    obtain ⟨n, -, rfl⟩ := hik
    simp only [Linked.bytes]
    split_ifs <;> exact ⟨_, rfl⟩
  | classRef op name | field op name | dynamic site =>
    obtain ⟨n, -, rfl⟩ := hik
    exact ⟨_, rfl⟩
  | line number =>
    cases hik
    have hnumber : number ≤ AssemblyFault.limit := hi
    simp only [Linked.bytes, if_pos hnumber]
    exact ⟨_, rfl⟩
  | invoke op member =>
    obtain ⟨hop, n, -, rfl⟩ | ⟨-, n, -, rfl⟩ := hik
    · have hparsed := hi hop
      simp only [Linked.bytes]
      split
      · exact ⟨_, rfl⟩
      · rename_i e he
        rw [he] at hparsed
        cases hparsed
    · exact ⟨_, rfl⟩
  | jump op target =>
    cases hik
    obtain ⟨destination, hdestination⟩ := Layout.exists_offset method (mark_mem_of_linksTo h hi)
    have hle := Layout.offset_le hdestination
    have hrange : -32768 ≤ (destination : Int) - pc ∧ (destination : Int) - pc ≤ 32767 := by omega
    simp only [Linked.bytes, hdestination, if_pos hrange]
    exact ⟨_, rfl⟩

end Instruction

theorem mem_withOffsets {pc : Nat} {code : List Linked} {entry : Nat × Linked}
    (h : entry ∈ withOffsets pc code) : entry.2 ∈ code ∧ entry.1 ≤ pc + codeSize code := by
  obtain ⟨i, hi⟩ := List.mem_iff_getElem?.1 h
  rw [getElem?_withOffsets] at hi
  obtain ⟨k, hk, rfl⟩ := Option.map_eq_some_iff.1 hi
  refine ⟨List.mem_of_getElem? hk, ?_⟩
  have := codeSize_append (code.take i) (code.drop i)
  rw [List.take_append_drop] at this
  simp
  omega

theorem exists_mapM {ε α β : Type} {f : α → Except ε β} {xs : List α}
    (h : ∀ x ∈ xs, ∃ y, f x = .ok y) : ∃ ys, xs.mapM f = .ok ys := by
  induction xs with
  | nil => exact ⟨[], rfl⟩
  | cons x xs ih =>
    obtain ⟨⟨y, hy⟩, hxs⟩ := List.forall_mem_cons.1 h
    obtain ⟨ys, hys⟩ := ih hxs
    exact ⟨y :: ys, by rw [List.mapM_cons, hy, hys]; rfl⟩

theorem Layout.exists_code {R : Operand → Nat → Prop} {code : List Instruction}
    {linked : List Linked} (h : List.Forall₂ (Instruction.LinksTo R) code linked)
    (hsize : codeSize linked ≤ 32767) (hplaced : ∀ i ∈ code, i.Placed code) (method : String) :
    ∃ bytes, (Layout.ofList linked).code method = .ok bytes := by
  have hparts : ∃ parts, (Layout.ofList linked).placed.toList.mapM
      (fun x : Nat × Linked => x.2.bytes (Layout.ofList linked) method x.1) = .ok parts := by
    refine exists_mapM fun x hx => ?_
    rw [placed_ofList] at hx
    obtain ⟨hmem, hpc⟩ := mem_withOffsets hx
    obtain ⟨i, hi, hik⟩ := exists_of_mem_right h hmem
    exact Instruction.exists_bytes h hsize (hplaced i hi) hik (by omega)
  obtain ⟨parts, hparts⟩ := hparts
  refine ⟨parts.flatten, ?_⟩
  change (_ >>= fun parts => pure (List.flatten parts)) = _
  rw [hparts]
  rfl

def VerificationType.texts : VerificationType → List String
  | .object name => [name]
  | _ => []

def VerificationType.Placed (code : List Instruction) : VerificationType → Prop
  | .uninitialized creation => creation < code.length
  | _ => True

instance (code : List Instruction) (t : VerificationType) : Decidable (t.Placed code) := by
  unfold VerificationType.Placed
  split <;> infer_instance

theorem ExceptionEntry.spends_bytes {linked : List Linked} {method : String} {e : ExceptionEntry}
    (hstart : .mark e.start ∈ linked) (hstop : .mark e.stop ∈ linked)
    (hhandler : .mark e.handler ∈ linked) (hshort : Short e.catches.toList) :
    Spends Link.used (e.bytes (Layout.ofList linked) method) (2 * e.catches.toList.length) := by
  obtain ⟨start, hstart⟩ := Layout.exists_offset method hstart
  obtain ⟨stop, hstop⟩ := Layout.exists_offset method hstop
  obtain ⟨handler, hhandler⟩ := Layout.exists_offset method hhandler
  unfold ExceptionEntry.bytes
  rw [hstart, hstop, hhandler]
  split
  · rename_i name hname
    rw [hname] at hshort ⊢
    exact (Link.spends_ofRequest (ConstantPool.spends_classRef (short_cons.1 hshort).1)).map _
  · exact spends_pure _ _

namespace StackMap

variable {linked : List Linked} {code : List Instruction}

theorem spends_typeBytes {t : VerificationType} (hlength : linked.length = code.length)
    (hplaced : t.Placed code) (hshort : Short t.texts) :
    Spends Link.used (typeBytes (Layout.ofList linked) t) (2 * t.texts.length) := by
  cases t with
  | object name =>
    exact (Link.spends_ofRequest (ConstantPool.spends_classRef (short_cons.1 hshort).1)).map _
  | uninitialized creation =>
    have hlt : creation < linked.length := by
      rw [hlength]
      exact hplaced
    simp only [typeBytes, Layout.offsetOf?_ofList, List.getElem?_eq_getElem hlt]
    exact spends_pure _ _
  | _ => exact spends_pure _ _

theorem spends_typesBytes {types : List VerificationType} (hlength : linked.length = code.length)
    (hplaced : ∀ t ∈ types, t.Placed code) (hshort : Short (types.flatMap VerificationType.texts)) :
    Spends Link.used (typesBytes (Layout.ofList linked) types)
      (2 * (types.flatMap VerificationType.texts).length) := by
  rw [← sum_map_mul]
  exact Spends.map (Spends.mapM fun t ht =>
    spends_typeBytes hlength (hplaced t ht) (hshort.of_mem_flatMap ht)) _

theorem spends_frameBytes {locals : List VerificationType} {f : PlacedStack}
    (hlength : linked.length = code.length) (hplaced : ∀ t ∈ locals ++ f.2, t.Placed code)
    (hshort : Short ((locals ++ f.2).flatMap VerificationType.texts)) :
    Spends Link.used (frameBytes (Layout.ofList linked) locals f)
      (2 * ((locals ++ f.2).flatMap VerificationType.texts).length) := by
  obtain ⟨delta, stack⟩ := f
  rw [List.flatMap_append, short_append] at hshort
  rw [List.forall_mem_append] at hplaced
  simp only [List.flatMap_append, List.length_append, Nat.mul_add]
  unfold frameBytes
  split
  · exact spends_pure _ _
  · rename_i hf
    cases hf
    have hentry := spends_typeBytes hlength (hplaced.2 _ List.mem_cons_self)
      (hshort.2.of_mem_flatMap List.mem_cons_self)
    exact (hentry.map _).mono (by simp)
  · rename_i hf
    cases hf
    exact (spends_typesBytes hlength hplaced.1 hshort.1).bind fun _ _ _ _ =>
      (spends_typesBytes hlength hplaced.2 hshort.2).map _

/-- The frames that stay are some of those given. -/
theorem foldl_addDistinct_sublist (frames kept : List PlacedStack) :
    (frames.foldl addDistinct kept).Sublist (frames.reverse ++ kept) := by
  induction frames generalizing kept with
  | nil => exact List.Sublist.refl _
  | cons f frames ih =>
    rw [List.foldl_cons, List.reverse_cons, List.append_assoc]
    refine (ih _).trans (List.Sublist.append_left ?_ _)
    unfold addDistinct
    split
    · split_ifs
      · exact List.sublist_cons_self _ _
      · exact List.Sublist.refl _
    · exact List.Sublist.refl _

theorem subperm_arrange (frames : List PlacedStack) : (arrange frames).Subperm frames := by
  have hkept := foldl_addDistinct_sublist (frames.mergeSort fun f g => f.1 ≤ g.1) []
  rw [List.append_nil] at hkept
  have hsorted := List.mergeSort_perm frames fun f g => f.1 ≤ g.1
  have hreversed := hkept.reverse
  rw [List.reverse_reverse] at hreversed
  exact hreversed.subperm.trans hsorted.subperm

theorem map_snd_distances (before : Option Nat) (frames : List PlacedStack) :
    (distances before frames).map Prod.snd = frames.map Prod.snd := by
  induction frames generalizing before with
  | nil => simp [distances]
  | cons f frames ih =>
    obtain ⟨pc, stack⟩ := f
    cases before with
    | none => simp [distances, ih]
    | some before => simp [distances, ih]

theorem exists_of_mem_distances {before : Option Nat} {frames : List PlacedStack} {f : PlacedStack}
    (h : f ∈ distances before frames) : ∃ g ∈ frames, g.2 = f.2 := by
  have hmem := List.mem_map_of_mem (f := Prod.snd) h
  rw [map_snd_distances] at hmem
  exact List.mem_map.1 hmem

def frameCost (locals stack : List VerificationType) : Nat :=
  2 * ((locals ++ stack).flatMap VerificationType.texts).length

theorem spends_bytes {locals : List VerificationType} {frames : List PlacedStack}
    (hlength : linked.length = code.length)
    (hplaced : ∀ f ∈ frames, ∀ t ∈ locals ++ f.2, t.Placed code)
    (hshort : ∀ f ∈ frames, Short ((locals ++ f.2).flatMap VerificationType.texts)) :
    Spends Link.used (bytes (Layout.ofList linked) locals frames)
      ((frames.map Prod.snd).map (frameCost locals)).sum := by
  rw [← map_snd_distances none, List.map_map]
  refine Spends.map (Spends.mapM fun f hf => ?_) _
  obtain ⟨g, hg, hstack⟩ := exists_of_mem_distances hf
  have hplaced := hplaced g hg
  have hshort := hshort g hg
  rw [hstack] at hplaced hshort
  exact spends_frameBytes hlength hplaced hshort

theorem sum_frameCost_arrange_le (locals : List VerificationType) (frames : List PlacedStack) :
    (((arrange frames).map Prod.snd).map (frameCost locals)).sum ≤
      ((frames.map Prod.snd).map (frameCost locals)).sum := by
  obtain ⟨kept, hkept, hsublist⟩ := subperm_arrange frames
  rw [← ((hkept.map Prod.snd).map (frameCost locals)).sum_nat]
  exact ((hsublist.map Prod.snd).map (frameCost locals)).sum_le_sum fun _ _ => Nat.zero_le _

end StackMap

namespace MethodBody

def texts (b : MethodBody) : List String :=
  b.instructions.flatMap Instruction.texts ++ b.handlers.flatMap (·.catches.toList) ++
    b.frames.flatMap fun f => (b.locals ++ f.stack).flatMap VerificationType.texts

/-- A bound on the constants that a body asks for. -/
def weight (b : MethodBody) : Nat := 3 * b.texts.length + b.instructions.length + 2

/-- Whether a body can be written, as far as it alone decides. -/
def Fits (b : MethodBody) : Prop :=
  b.code ≠ [] ∧ 5 * b.code.length ≤ 32767 ∧
    (∀ i ∈ b.instructions, i.Placed b.instructions) ∧
    (∀ e ∈ b.handlers, .mark e.start ∈ b.instructions ∧ .mark e.stop ∈ b.instructions ∧
      .mark e.handler ∈ b.instructions) ∧
    ∀ f ∈ b.frames, .mark f.label ∈ b.instructions ∧
      ∀ t ∈ b.locals ++ f.stack, t.Placed b.instructions

instance (b : MethodBody) : Decidable b.Fits := by
  unfold Fits
  infer_instance

end MethodBody

theorem spends_lineAttribute (lines : List (Nat × Nat)) :
    Spends Link.used (lineAttribute lines) 1 := by
  unfold lineAttribute
  split_ifs
  · exact spends_pure _ _
  · exact (Link.spends_ofRequest (ConstantPool.spends_utf8 (by decide))).map _

theorem Link.spends_ofExcept_bind {α β : Type} {x : Except AssemblyFault α} {a : α}
    {f : α → Link β} {n : Nat} (h : x = .ok a) (hf : Spends Link.used (f a) n) :
    Spends Link.used (Link.ofExcept x >>= f) n := by
  rw [h]
  exact hf

namespace Method

variable {m : Method} {linked : List Linked}

theorem exists_placed {R : Operand → Nat → Prop}
    (hlinked : List.Forall₂ (Instruction.LinksTo R) m.body.instructions linked)
    (hframes : ∀ f ∈ m.body.frames, .mark f.label ∈ m.body.instructions) :
    ∃ placed, m.body.frames.mapM (StackMap.place (Layout.ofList linked) m.name) = .ok placed ∧
      placed.map Prod.snd = m.body.frames.map Frame.stack := by
  have hall : ∀ f ∈ m.body.frames, ∃ x, StackMap.place (Layout.ofList linked) m.name f = .ok x := by
    intro f hf
    obtain ⟨pc, hpc⟩ := Layout.exists_offset m.name
      (Instruction.mark_mem_of_linksTo hlinked (hframes f hf))
    exact ⟨(pc, f.stack), by rw [StackMap.place, hpc]; rfl⟩
  obtain ⟨placed, hplaced⟩ := exists_mapM hall
  refine ⟨placed, hplaced, ?_⟩
  rw [← List.forall₂_eq_eq_eq, List.forall₂_map_left_iff, List.forall₂_map_right_iff]
  refine (except_mapM_ok hplaced).flip.imp fun x f hx => ?_
  obtain ⟨pc, -, hx⟩ := except_bind_ok hx
  cases hx
  rfl

theorem spends_stackMapAttribute {R : Operand → Nat → Prop}
    (hlinked : List.Forall₂ (Instruction.LinksTo R) m.body.instructions linked)
    (hfits : m.body.Fits) (hshort : Short m.body.texts) :
    Spends Link.used (stackMapAttribute (Layout.ofList linked) m)
      (1 + ((m.body.frames.map Frame.stack).map (StackMap.frameCost m.body.locals)).sum) := by
  obtain ⟨-, -, -, -, hframes⟩ := hfits
  have hshort := (short_append.1 hshort).2
  obtain ⟨placed, hplaced, hstacks⟩ := exists_placed hlinked fun f hf => (hframes f hf).1
  have hmem {x : StackMap.PlacedStack} (hx : x ∈ StackMap.arrange placed) :
      ∃ f ∈ m.body.frames, f.stack = x.2 := by
    have := List.mem_map_of_mem (f := Prod.snd) ((StackMap.subperm_arrange placed).subset hx)
    rw [hstacks] at this
    exact List.mem_map.1 this
  have htable : Spends Link.used
      (StackMap.bytes (Layout.ofList linked) m.body.locals (StackMap.arrange placed))
      (((StackMap.arrange placed).map Prod.snd).map (StackMap.frameCost m.body.locals)).sum := by
    refine StackMap.spends_bytes hlinked.length_eq.symm (fun x hx => ?_) fun x hx => ?_
    · obtain ⟨f, hf, hstack⟩ := hmem hx
      rw [← hstack]
      exact (hframes f hf).2
    · obtain ⟨f, hf, hstack⟩ := hmem hx
      rw [← hstack]
      exact hshort.of_mem_flatMap hf
  have hcost := StackMap.sum_frameCost_arrange_le m.body.locals placed
  rw [hstacks] at hcost
  unfold stackMapAttribute
  split_ifs
  · exact spends_pure _ _
  · refine Link.spends_ofExcept_bind hplaced ?_
    exact (Link.spends_ofRequest (ConstantPool.spends_utf8 (by decide))).bind fun _ _ _ _ =>
      (htable.mono hcost).map _

theorem spends_handlers {R : Operand → Nat → Prop}
    (hlinked : List.Forall₂ (Instruction.LinksTo R) m.body.instructions linked)
    (hfits : m.body.Fits) (hshort : Short (m.body.handlers.flatMap (·.catches.toList))) :
    Spends Link.used (m.body.handlers.mapM (ExceptionEntry.bytes (Layout.ofList linked) m.name))
      (2 * (m.body.handlers.flatMap (·.catches.toList)).length) := by
  obtain ⟨-, -, -, hhandlers, -⟩ := hfits
  rw [← sum_map_mul]
  refine Spends.mapM fun e he => ?_
  obtain ⟨hstart, hstop, hhandler⟩ := hhandlers e he
  exact ExceptionEntry.spends_bytes (Instruction.mark_mem_of_linksTo hlinked hstart)
    (Instruction.mark_mem_of_linksTo hlinked hstop)
    (Instruction.mark_mem_of_linksTo hlinked hhandler) (hshort.of_mem_flatMap he)

theorem spends_codeBytes (hfits : m.body.Fits) (hshort : Short m.body.texts) :
    Spends Link.used m.codeBytes m.body.weight := by
  obtain ⟨hbefore, -⟩ := short_append.1 hshort
  obtain ⟨hinstructions, hcaught⟩ := short_append.1 hbefore
  have hlink : Spends Link.used (m.body.instructions.mapM Instruction.link)
      (m.body.instructions.map fun i => 3 * i.texts.length + 1).sum :=
    Spends.mapM fun i hi => Instruction.spends_link (hinstructions.of_mem_flatMap hi)
  have hspends : Spends Link.used m.codeBytes
      ((m.body.instructions.map fun i => 3 * i.texts.length + 1).sum +
        (2 * (m.body.handlers.flatMap (·.catches.toList)).length +
          (1 + (1 + ((m.body.frames.map Frame.stack).map
            (StackMap.frameCost m.body.locals)).sum)))) := by
    refine hlink.bind fun linked s s' hok => ?_
    have hlinked : List.Forall₂ (Instruction.LinksTo fun operand n => ∃ l l',
        operand.number l = .ok n l') m.body.instructions linked := by
      refine (mapM_ok hok).imp fun i k hk => ?_
      obtain ⟨l, l', hk⟩ := hk
      exact (Instruction.linksTo_of_link hk).mono fun _ _ hn => ⟨l, l', hn⟩
    obtain ⟨hcode, hsize, hplaced, -, -⟩ := id hfits
    have hpos := Instruction.codeSize_pos_of_linksTo hlinked hcode
    have hle := (Instruction.codeSize_le_of_linksTo hlinked).trans hsize
    obtain ⟨code, hcode⟩ := Layout.exists_code hlinked hle hplaced m.name
    have hlimit : ¬((Layout.ofList linked).size = 0 ∨
        AssemblyFault.limit < (Layout.ofList linked).size) := by
      rw [Layout.size_ofList, AssemblyFault.limit]
      omega
    simp only [if_neg hlimit]
    refine Link.spends_ofExcept_bind hcode ?_
    exact (spends_handlers hlinked hfits hcaught).bind fun _ _ _ _ =>
      (spends_lineAttribute _).bind fun _ _ _ _ =>
        (spends_stackMapAttribute hlinked hfits hshort).map _
  refine hspends.mono ?_
  have hlinks (is : List Instruction) : (is.map fun i => 3 * i.texts.length + 1).sum =
      3 * (is.flatMap Instruction.texts).length + is.length := by
    induction is with
    | nil => rfl
    | cons i is ih =>
      simp [ih]
      omega
  have hframes : ((m.body.frames.map Frame.stack).map (StackMap.frameCost m.body.locals)).sum =
      2 * (m.body.frames.flatMap fun f =>
        (m.body.locals ++ f.stack).flatMap VerificationType.texts).length := by
    rw [List.map_map, ← sum_map_mul]
    rfl
  rw [hlinks, hframes, MethodBody.weight, MethodBody.texts, List.length_append,
    List.length_append]
  omega

end Method

def Method.texts (m : Method) : List String := m.name :: m.descriptor :: m.body.texts

theorem Method.spends_bytes {m : Method} (hfits : m.body.Fits) (hshort : Short m.texts) :
    Spends Link.used m.bytes (3 + m.body.weight) := by
  obtain ⟨hname, hdescriptor, hbody⟩ := by simpa only [Method.texts, short_cons] using hshort
  have hspends : Spends Link.used m.bytes (1 + (1 + (1 + m.body.weight))) :=
    (Link.spends_ofRequest (ConstantPool.spends_utf8 hname)).bind fun _ _ _ _ =>
      (Link.spends_ofRequest (ConstantPool.spends_utf8 hdescriptor)).bind fun _ _ _ _ =>
        (Link.spends_ofRequest (ConstantPool.spends_utf8 (by decide))).bind fun _ _ _ _ =>
          (m.spends_codeBytes hfits hbody).map _
  exact hspends.mono (by omega)

def InnerClass.texts (c : InnerClass) : List String := [c.inner, c.outer, c.name]

theorem InnerClass.spends_bytes {c : InnerClass} (hshort : Short c.texts) :
    Spends Link.used c.bytes 5 := by
  obtain ⟨hinner, houter, hname, -⟩ := by simpa only [InnerClass.texts, short_cons] using hshort
  exact (Link.spends_ofRequest (ConstantPool.spends_classRef hinner)).bind fun _ _ _ _ =>
    (Link.spends_ofRequest (ConstantPool.spends_classRef houter)).bind fun _ _ _ _ =>
      (Link.spends_ofRequest (ConstantPool.spends_utf8 hname)).map _

theorem spends_sourceAttribute {source : Option String} (hshort : Short source.toList) :
    Spends Link.used (sourceAttribute source) 2 := by
  cases source with
  | none => exact spends_pure _ _
  | some source =>
    exact (Link.spends_ofRequest (ConstantPool.spends_utf8 (by decide))).bind fun _ _ _ _ =>
      (Link.spends_ofRequest (ConstantPool.spends_utf8 (short_cons.1 hshort).1)).map _

theorem spends_innerClassesAttribute {classes : List InnerClass}
    (hshort : Short (classes.flatMap InnerClass.texts)) :
    Spends Link.used (innerClassesAttribute classes) (1 + (classes.map fun _ => 5).sum) := by
  unfold innerClassesAttribute
  split_ifs
  · exact spends_pure _ _
  · exact (Link.spends_ofRequest (ConstantPool.spends_utf8 (by decide))).bind fun _ _ _ _ =>
      (Spends.mapM fun c hc => c.spends_bytes (hshort.of_mem_flatMap hc)).map _

theorem spends_bootstrapAttribute : Spends Link.used bootstrapAttribute 1 := by
  intro l hl
  simp only [bootstrapAttribute]
  rw [bind_of_ok (show (get : Link Linker) l = .ok l l from rfl)]
  split_ifs
  · exact spends_pure _ _ l hl
  · exact (Link.spends_ofRequest (ConstantPool.spends_utf8 (by decide))).map _ l hl

namespace ClassFile

def texts (c : ClassFile) : List String :=
  c.name :: c.superName :: c.sourceFile.toList ++ c.methods.flatMap Method.texts ++
    c.innerClasses.flatMap InnerClass.texts

def weight (c : ClassFile) : Nat :=
  (c.methods.map fun m => 3 + m.body.weight).sum + (c.innerClasses.map fun _ => 5).sum + 8

def Fits (c : ClassFile) : Prop :=
  Short c.texts ∧ c.weight < 65535 ∧ ∀ m ∈ c.methods, m.body.Fits

instance (c : ClassFile) : Decidable c.Fits := by
  unfold Fits
  infer_instance

theorem spends_bodyBytes {c : ClassFile} (h : c.Fits) : Spends Link.used c.bodyBytes c.weight := by
  obtain ⟨hshort, -, hmethods⟩ := h
  obtain ⟨hbefore, hinner⟩ := short_append.1 hshort
  obtain ⟨hbefore, htexts⟩ := short_append.1 hbefore
  obtain ⟨hname, hsuper, hsource⟩ := by simpa only [short_cons] using hbefore
  have hspends : Spends Link.used c.bodyBytes (2 + (2 + ((c.methods.map fun m =>
      3 + m.body.weight).sum + (2 + ((1 + (c.innerClasses.map fun _ => 5).sum) + 1))))) :=
    (Link.spends_ofRequest (ConstantPool.spends_classRef hname)).bind fun _ _ _ _ =>
      (Link.spends_ofRequest (ConstantPool.spends_classRef hsuper)).bind fun _ _ _ _ =>
        (Spends.mapM fun m hm => m.spends_bytes (hmethods m hm)
          (htexts.of_mem_flatMap hm)).bind fun _ _ _ _ =>
          (spends_sourceAttribute hsource).bind fun _ _ _ _ =>
            (spends_innerClassesAttribute hinner).bind fun _ _ _ _ =>
              spends_bootstrapAttribute.map _
  refine hspends.mono ?_
  rw [weight]
  omega

/-- A class within the limits can be written. -/
theorem exists_bytes_of_fits {c : ClassFile} (h : c.Fits) : ∃ bytes, c.bytes = .ok bytes := by
  have hroom : Link.used {} + c.weight < 65535 := by
    have := h.2.1
    simpa [Link.used, ConstantPool.used, ConstantPool.empty] using this
  obtain ⟨body, linker, hok, -⟩ := spends_bodyBytes h {} hroom
  exact ⟨_, by rw [bytes, hok]⟩

end ClassFile

end SmalltalkJvm
