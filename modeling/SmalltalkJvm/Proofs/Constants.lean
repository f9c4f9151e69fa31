import SmalltalkJvm.Jvm.ConstantPool
import SmalltalkJvm.Proofs.Actions
import SmalltalkJvm.Proofs.Reading

/-! # Constants that were asked for

A pool only grows, so what a number stands for never changes. A request is described by what its
number stands for in every later pool, and by the string constants that it adds: a pool holds one
for each text that was asked for, in the order of the first requests.
-/

namespace SmalltalkJvm

theorem eraseDups_concat_of_mem {α : Type} [BEq α] [LawfulBEq α] {l : List α} {a : α}
    (h : a ∈ l) : (l ++ [a]).eraseDups = l.eraseDups := by
  simp [List.eraseDups_append, List.removeAll, h]

theorem eraseDups_concat_of_notMem {α : Type} [BEq α] [LawfulBEq α] {l : List α} {a : α}
    (h : a ∉ l) : (l ++ [a]).eraseDups = l.eraseDups ++ [a] := by
  simp [List.eraseDups_append, List.removeAll, h, List.eraseDups_cons]

theorem nodup_eraseDups {α : Type} [BEq α] [LawfulBEq α] (l : List α) : l.eraseDups.Nodup := by
  induction hn : l.length using Nat.strongRecOn generalizing l with
  | ind n ih =>
    cases l with
    | nil => simp
    | cons a l =>
      rw [List.eraseDups_cons, List.nodup_cons]
      have hshort : (l.filter fun b => !b == a).length < n := by
        rw [← hn, List.length_cons]
        exact Nat.lt_succ_of_le (List.length_filter_le _ _)
      refine ⟨fun hmem => ?_, ih _ hshort _ rfl⟩
      simp [List.mem_eraseDups] at hmem

namespace Constant

def isString : Constant → Bool
  | string _ => true
  | _ => false

/-- Whether the constant can be written as it is: its text is short enough, its numbers small
enough. -/
def Fits : Constant → Prop
  | utf8 text => ModifiedUtf8.size text ≤ 65535
  | integer _ => True
  | classRef i | string i | methodType i | methodHandle _ i => i < 65536
  | fieldRef i j | methodRef i j | interfaceMethodRef i j | nameAndType i j | invokeDynamic i j =>
    i < 65536 ∧ j < 65536

end Constant

namespace ConstantPool

def Grows (p p' : ConstantPool) : Prop := p.table.toList <+: p'.table.toList

theorem Grows.refl (p : ConstantPool) : p.Grows p := List.prefix_rfl

theorem Grows.trans {p p' p'' : ConstantPool} (h : p.Grows p') (k : p'.Grows p'') : p.Grows p'' :=
  List.IsPrefix.trans h k

theorem get?_eq_some {p : ConstantPool} {i : Nat} {c : Constant} :
    p.get? i = some c ↔ ∃ j, i = j + 1 ∧ p.table.toList[j]? = some c := by
  cases i with
  | zero => simp [get?]
  | succ i => simp [get?, Numbering.get?, Numbering.toList]

theorem Grows.get? {p p' : ConstantPool} (h : p.Grows p') {i : Nat} {c : Constant}
    (hc : p.get? i = some c) : p'.get? i = some c := by
  obtain ⟨j, rfl, hj⟩ := get?_eq_some.1 hc
  obtain ⟨more, hmore⟩ := h
  refine get?_eq_some.2 ⟨j, rfl, ?_⟩
  rw [← hmore, List.getElem?_append_left (List.getElem?_eq_some_iff.1 hj).1, hj]

theorem lt_of_get? {p : ConstantPool} {i : Nat} {c : Constant} (h : p.get? i = some c) :
    0 < i ∧ i < 65535 := by
  obtain ⟨j, rfl, hj⟩ := get?_eq_some.1 h
  have hlt := (List.getElem?_eq_some_iff.1 hj).1
  have hsize := p.size_lt
  rw [Numbering.toList, Array.length_toList] at hlt
  rw [Numbering.size] at hsize
  omega

/-- No constant has two numbers. -/
theorem eq_of_get? {p : ConstantPool} {i j : Nat} {c : Constant} (hi : p.get? i = some c)
    (hj : p.get? j = some c) : i = j := by
  obtain ⟨m, rfl, hm⟩ := get?_eq_some.1 hi
  obtain ⟨n, rfl, hn⟩ := get?_eq_some.1 hj
  rw [Numbering.toList, Array.getElem?_toList] at hm hn
  have hplace := ((p.table.place?_eq_some_iff c m).2 hm).symm.trans
    ((p.table.place?_eq_some_iff c n).2 hn)
  rw [Option.some.inj hplace]

theorem mem_of_get? {p : ConstantPool} {i : Nat} {c : Constant} (h : p.get? i = some c) :
    c ∈ p.table.toList := by
  obtain ⟨j, -, hj⟩ := get?_eq_some.1 h
  exact List.mem_of_getElem? hj

/-- A constant gets the number it has, or joins the pool. -/
theorem intern_ok {c : Constant} {p p' : ConstantPool} {i : Nat} (h : intern c p = .ok i p') :
    p'.get? i = some c ∧
      (p' = p ∨ p'.table.toList = p.table.toList ++ [c] ∧ c ∉ p.table.toList) := by
  obtain ⟨table, size_lt⟩ := p
  simp only [intern] at h
  split at h
  · rename_i place hplace
    cases h
    refine ⟨?_, .inl rfl⟩
    have hget := (table.place?_eq_some_iff c place).1 hplace
    simpa [get?] using hget
  · rename_i hplace
    split_ifs at h
    cases h
    have hnew : c ∉ table.toList := by
      intro hmem
      obtain ⟨j, hj⟩ := List.mem_iff_getElem?.1 hmem
      rw [Numbering.toList, Array.getElem?_toList] at hj
      rw [(table.place?_eq_some_iff c j).2 hj] at hplace
      cases hplace
    refine ⟨get?_eq_some.2 ⟨table.size, rfl, ?_⟩, .inr ⟨table.toList_push c hplace, hnew⟩⟩
    rw [table.toList_push c hplace]
    simp [Numbering.toList, Numbering.size]

def Loads (p : ConstantPool) (texts : List String) : Prop :=
  List.Forall₂ (fun c text => ∃ i, c = .string i ∧ p.get? i = some (.utf8 text))
    (p.table.toList.filter Constant.isString) texts

/-- A pool from which some texts were asked for as string constants. -/
structure Holds (p : ConstantPool) (texts : List String) : Prop where
  fits : ∀ c ∈ p.table.toList, c.Fits
  loads : p.Loads texts.eraseDups

theorem Loads.grows {p p' : ConstantPool} {texts : List String} (h : p.Loads texts)
    (hgrows : p.Grows p')
    (hsame : p'.table.toList.filter Constant.isString = p.table.toList.filter Constant.isString) :
    p'.Loads texts := by
  rw [Loads, hsame]
  refine List.Forall₂.imp (fun c text hc => ?_) h
  obtain ⟨i, hi, htext⟩ := hc
  exact ⟨i, hi, hgrows.get? htext⟩

/-- A request that succeeds asks for some texts as string constants, and its result is as described
in every later pool. -/
def Ensures {α : Type} (r : Request α) (texts : List String) (Q : α → ConstantPool → Prop) :
    Prop :=
  ∀ p a p' loaded, p.Holds loaded → r p = .ok a p' →
    p.Grows p' ∧ p'.Holds (loaded ++ texts) ∧ ∀ later, p'.Grows later → Q a later

section

variable {α β : Type} {texts texts' : List String} {Q : α → ConstantPool → Prop}
  {R : α → β → ConstantPool → Prop}

theorem Ensures.bind {r : Request α} {f : α → Request β} (hr : Ensures r texts Q)
    (hf : ∀ a p, Q a p → Ensures (f a) texts' (R a)) :
    Ensures (r >>= f) (texts ++ texts') fun b p => ∃ a, Q a p ∧ R a b p := by
  intro p b p' loaded hp h
  obtain ⟨a, middle, hfirst, hsecond⟩ := bind_ok h
  obtain ⟨hgrows, hholds, hq⟩ := hr p a middle loaded hp hfirst
  obtain ⟨hgrows', hholds', hr'⟩ := hf a middle (hq middle (.refl _)) middle b p' _ hholds hsecond
  refine ⟨hgrows.trans hgrows', by rwa [← List.append_assoc], fun later hlater => ?_⟩
  exact ⟨a, hq later (hgrows'.trans hlater), hr' later hlater⟩

theorem Ensures.imp {r : Request α} {Q' : α → ConstantPool → Prop} (hr : Ensures r texts Q)
    (h : ∀ a p, Q a p → Q' a p) : Ensures r texts Q' := by
  intro p a p' loaded hp hok
  obtain ⟨hgrows, hholds, hq⟩ := hr p a p' loaded hp hok
  exact ⟨hgrows, hholds, fun later hlater => h a later (hq later hlater)⟩

end

theorem intern_grows {c : Constant} {p p' : ConstantPool} {i : Nat} (h : intern c p = .ok i p') :
    p.Grows p' := by
  rcases (intern_ok h).2 with rfl | ⟨hnew, -⟩
  · exact .refl _
  · exact ⟨[c], hnew.symm⟩

theorem fits_of_intern {c : Constant} {p p' : ConstantPool} {i : Nat} (h : intern c p = .ok i p')
    (hc : c.Fits) (hp : ∀ c ∈ p.table.toList, c.Fits) : ∀ c ∈ p'.table.toList, c.Fits := by
  rcases (intern_ok h).2 with rfl | ⟨hnew, -⟩
  · exact hp
  · rw [hnew]
    exact List.forall_mem_append.2 ⟨hp, List.forall_mem_singleton.2 hc⟩

theorem ensures_intern (c : Constant) (hfits : c.Fits) (hs : c.isString = false) :
    Ensures (intern c) [] fun i p => p.get? i = some c := by
  intro p i p' loaded hp h
  have hgrows := intern_grows h
  refine ⟨hgrows, ?_, fun later hlater => hlater.get? (intern_ok h).1⟩
  rw [List.append_nil]
  refine ⟨fits_of_intern h hfits hp.fits, hp.loads.grows hgrows ?_⟩
  rcases (intern_ok h).2 with rfl | ⟨hnew, -⟩
  · rfl
  · simp [hnew, hs]

def IsText (p : ConstantPool) (i : Nat) (text : String) : Prop := p.get? i = some (.utf8 text)

def IsClass (p : ConstantPool) (i : Nat) (name : String) : Prop :=
  ∃ j, p.get? i = some (.classRef j) ∧ p.IsText j name

def IsNameAndType (p : ConstantPool) (i : Nat) (name descriptor : String) : Prop :=
  ∃ j k, p.get? i = some (.nameAndType j k) ∧ p.IsText j name ∧ p.IsText k descriptor

def IsMember (make : Nat → Nat → Constant) (p : ConstantPool) (i : Nat) (m : MemberRef) : Prop :=
  ∃ j k, p.get? i = some (make j k) ∧ p.IsClass j m.owner ∧ p.IsNameAndType k m.name m.descriptor

def IsMethodType (p : ConstantPool) (i : Nat) (descriptor : String) : Prop :=
  ∃ j, p.get? i = some (.methodType j) ∧ p.IsText j descriptor

end ConstantPool

def HandleKind.member : HandleKind → Nat → Nat → Constant
  | getField | getStatic | putField | putStatic => .fieldRef
  | invokeInterface => .interfaceMethodRef
  | _ => .methodRef

theorem HandleKind.member_inj (kind : HandleKind) {i j i' j' : Nat}
    (h : kind.member i j = kind.member i' j') : i = i' ∧ j = j' := by
  cases kind <;> exact ⟨by injection h, by injection h⟩

theorem HandleKind.tag_inj {kind kind' : HandleKind} (h : kind.tag = kind'.tag) : kind = kind' := by
  revert h
  cases kind <;> cases kind' <;> decide

namespace ConstantPool

def IsHandle (p : ConstantPool) (i : Nat) (h : MethodHandle) : Prop :=
  ∃ j, p.get? i = some (.methodHandle h.kind.tag j) ∧ IsMember h.kind.member p j h.target

def IsString (p : ConstantPool) (i : Nat) (text : String) : Prop :=
  ∃ j, p.get? i = some (.string j) ∧ p.IsText j text

section

variable {p : ConstantPool} {i : Nat}

theorem IsText.lt {text : String} (h : p.IsText i text) : i < 65536 :=
  Nat.lt_trans (lt_of_get? h).2 (by decide)

theorem IsClass.lt {name : String} (h : p.IsClass i name) : i < 65536 := by
  obtain ⟨j, hj, -⟩ := h
  exact Nat.lt_trans (lt_of_get? hj).2 (by decide)

theorem IsNameAndType.lt {name descriptor : String} (h : p.IsNameAndType i name descriptor) :
    i < 65536 := by
  obtain ⟨j, k, hjk, -⟩ := h
  exact Nat.lt_trans (lt_of_get? hjk).2 (by decide)

theorem IsMember.lt {make : Nat → Nat → Constant} {m : MemberRef} (h : IsMember make p i m) :
    i < 65536 := by
  obtain ⟨j, k, hjk, -⟩ := h
  exact Nat.lt_trans (lt_of_get? hjk).2 (by decide)

end

section

variable {p later : ConstantPool} {i : Nat}

theorem Grows.isText {text : String} (h : p.Grows later) (hi : p.IsText i text) :
    later.IsText i text :=
  h.get? hi

theorem Grows.isClass {name : String} (h : p.Grows later) (hi : p.IsClass i name) :
    later.IsClass i name := by
  obtain ⟨j, hj, hname⟩ := hi
  exact ⟨j, h.get? hj, h.isText hname⟩

theorem Grows.isMethodType {descriptor : String} (h : p.Grows later)
    (hi : p.IsMethodType i descriptor) : later.IsMethodType i descriptor := by
  obtain ⟨j, hj, hdescriptor⟩ := hi
  exact ⟨j, h.get? hj, h.isText hdescriptor⟩

theorem Grows.isMember {make : Nat → Nat → Constant} {m : MemberRef} (h : p.Grows later)
    (hi : IsMember make p i m) : IsMember make later i m := by
  obtain ⟨j, k, hjk, howner, ⟨n, d, hnd, hname, hdescriptor⟩⟩ := hi
  exact ⟨j, k, h.get? hjk, h.isClass howner, ⟨n, d, h.get? hnd, h.isText hname,
    h.isText hdescriptor⟩⟩

theorem Grows.isHandle {x : MethodHandle} (h : p.Grows later) (hi : p.IsHandle i x) :
    later.IsHandle i x := by
  obtain ⟨j, hj, hmember⟩ := hi
  exact ⟨j, h.get? hj, h.isMember hmember⟩

end

section

variable {p : ConstantPool} {i j : Nat}

theorem IsText.inj {text text' : String} (h : p.IsText i text) (h' : p.IsText i text') :
    text = text' := by
  have heq : Constant.utf8 text = .utf8 text' := Option.some.inj (h.symm.trans h')
  exact Constant.utf8.inj heq

theorem IsText.unique {text : String} (h : p.IsText i text) (h' : p.IsText j text) : i = j :=
  eq_of_get? h h'

theorem IsClass.inj {name name' : String} (h : p.IsClass i name) (h' : p.IsClass i name') :
    name = name' := by
  obtain ⟨j, hj, hname⟩ := h
  obtain ⟨j', hj', hname'⟩ := h'
  cases hj.symm.trans hj'
  exact hname.inj hname'

theorem IsClass.unique {name : String} (h : p.IsClass i name) (h' : p.IsClass j name) : i = j := by
  obtain ⟨k, hk, hname⟩ := h
  obtain ⟨k', hk', hname'⟩ := h'
  obtain rfl := hname.unique hname'
  exact eq_of_get? hk hk'

theorem IsNameAndType.inj {name name' descriptor descriptor' : String}
    (h : p.IsNameAndType i name descriptor) (h' : p.IsNameAndType i name' descriptor') :
    name = name' ∧ descriptor = descriptor' := by
  obtain ⟨j, k, hjk, hname, hdescriptor⟩ := h
  obtain ⟨j', k', hjk', hname', hdescriptor'⟩ := h'
  cases hjk.symm.trans hjk'
  exact ⟨hname.inj hname', hdescriptor.inj hdescriptor'⟩

theorem IsNameAndType.unique {name descriptor : String} (h : p.IsNameAndType i name descriptor)
    (h' : p.IsNameAndType j name descriptor) : i = j := by
  obtain ⟨m, n, hmn, hname, hdescriptor⟩ := h
  obtain ⟨m', n', hmn', hname', hdescriptor'⟩ := h'
  obtain rfl := hname.unique hname'
  obtain rfl := hdescriptor.unique hdescriptor'
  exact eq_of_get? hmn hmn'

theorem IsMember.inj {kind : HandleKind} {m m' : MemberRef} (h : IsMember kind.member p i m)
    (h' : IsMember kind.member p i m') : m = m' := by
  obtain ⟨j, k, hjk, howner, hname⟩ := h
  obtain ⟨j', k', hjk', howner', hname'⟩ := h'
  obtain ⟨rfl, rfl⟩ := kind.member_inj (Option.some.inj (hjk.symm.trans hjk'))
  obtain ⟨owner, name, descriptor⟩ := m
  obtain ⟨owner', name', descriptor'⟩ := m'
  obtain rfl : owner = owner' := howner.inj howner'
  obtain ⟨rfl, rfl⟩ : name = name' ∧ descriptor = descriptor' := hname.inj hname'
  rfl

theorem IsMember.unique {make : Nat → Nat → Constant} {m : MemberRef} (h : IsMember make p i m)
    (h' : IsMember make p j m) : i = j := by
  obtain ⟨k, n, hkn, howner, hname⟩ := h
  obtain ⟨k', n', hkn', howner', hname'⟩ := h'
  obtain rfl := howner.unique howner'
  obtain rfl := hname.unique hname'
  exact eq_of_get? hkn hkn'

theorem IsMethodType.inj {descriptor descriptor' : String} (h : p.IsMethodType i descriptor)
    (h' : p.IsMethodType i descriptor') : descriptor = descriptor' := by
  obtain ⟨j, hj, hdescriptor⟩ := h
  obtain ⟨j', hj', hdescriptor'⟩ := h'
  cases hj.symm.trans hj'
  exact hdescriptor.inj hdescriptor'

theorem IsMethodType.unique {descriptor : String} (h : p.IsMethodType i descriptor)
    (h' : p.IsMethodType j descriptor) : i = j := by
  obtain ⟨k, hk, hdescriptor⟩ := h
  obtain ⟨k', hk', hdescriptor'⟩ := h'
  obtain rfl := hdescriptor.unique hdescriptor'
  exact eq_of_get? hk hk'

theorem IsHandle.inj {h h' : MethodHandle} (hi : p.IsHandle i h) (hi' : p.IsHandle i h') :
    h = h' := by
  obtain ⟨j, hj, hmember⟩ := hi
  obtain ⟨j', hj', hmember'⟩ := hi'
  obtain ⟨kind, target⟩ := h
  obtain ⟨kind', target'⟩ := h'
  obtain ⟨htag, rfl⟩ := Constant.methodHandle.inj (Option.some.inj (hj.symm.trans hj'))
  obtain rfl := HandleKind.tag_inj htag
  obtain rfl : target = target' := hmember.inj hmember'
  rfl

theorem IsHandle.unique {h : MethodHandle} (hi : p.IsHandle i h) (hj : p.IsHandle j h) : i = j := by
  obtain ⟨k, hk, hmember⟩ := hi
  obtain ⟨k', hk', hmember'⟩ := hj
  obtain rfl := hmember.unique hmember'
  exact eq_of_get? hk hk'

end

theorem ensures_utf8 (text : String) : Ensures (utf8 text) [] fun i p => p.IsText i text := by
  unfold utf8
  split_ifs with hsize
  · exact ensures_intern (.utf8 text) hsize rfl
  · rintro p i p' loaded hp ⟨⟩

theorem ensures_classRef (name : String) :
    Ensures (classRef name) [] fun i p => p.IsClass i name := by
  refine ((ensures_utf8 name).bind fun j p hj => ensures_intern (.classRef j) hj.lt rfl).imp ?_
  rintro i p ⟨j, hj, hi⟩
  exact ⟨j, hi, hj⟩

theorem ensures_nameAndType (name descriptor : String) :
    Ensures (nameAndType name descriptor) [] fun i p => p.IsNameAndType i name descriptor := by
  refine ((ensures_utf8 name).bind fun j p hj => (ensures_utf8 descriptor).bind fun k p hk =>
    ensures_intern (.nameAndType j k) ⟨hj.lt, hk.lt⟩ rfl).imp ?_
  rintro i p ⟨j, hj, k, hk, hi⟩
  exact ⟨j, k, hi, hj, hk⟩

theorem ensures_member (make : Nat → Nat → Constant)
    (hfits : ∀ j k, j < 65536 → k < 65536 → (make j k).Fits)
    (hs : ∀ j k, (make j k).isString = false) (m : MemberRef) :
    Ensures (do
      let owner ← classRef m.owner
      let nameAndType ← nameAndType m.name m.descriptor
      intern (make owner nameAndType)) [] fun i p => IsMember make p i m := by
  refine ((ensures_classRef m.owner).bind fun j p hj =>
    (ensures_nameAndType m.name m.descriptor).bind fun k p hk =>
      ensures_intern (make j k) (hfits j k hj.lt hk.lt) (hs j k)).imp ?_
  rintro i p ⟨j, hj, k, hk, hi⟩
  exact ⟨j, k, hi, hj, hk⟩

theorem ensures_methodType (descriptor : String) :
    Ensures (methodType descriptor) [] fun i p => p.IsMethodType i descriptor := by
  refine ((ensures_utf8 descriptor).bind fun j p hj =>
    ensures_intern (.methodType j) hj.lt rfl).imp ?_
  rintro i p ⟨j, hj, hi⟩
  exact ⟨j, hi, hj⟩

theorem ensures_fieldRef (m : MemberRef) :
    Ensures (fieldRef m) [] fun i p => IsMember .fieldRef p i m :=
  ensures_member .fieldRef (fun _ _ => And.intro) (fun _ _ => rfl) m

theorem ensures_methodRef (m : MemberRef) :
    Ensures (methodRef m) [] fun i p => IsMember .methodRef p i m :=
  ensures_member .methodRef (fun _ _ => And.intro) (fun _ _ => rfl) m

theorem ensures_interfaceMethodRef (m : MemberRef) :
    Ensures (interfaceMethodRef m) [] fun i p => IsMember .interfaceMethodRef p i m :=
  ensures_member .interfaceMethodRef (fun _ _ => And.intro) (fun _ _ => rfl) m

theorem Ensures.handle {x : Request Nat} {h : MethodHandle}
    (hx : Ensures x [] fun i p => IsMember h.kind.member p i h.target) :
    Ensures (x >>= fun j => intern (.methodHandle h.kind.tag j)) [] fun i p => p.IsHandle i h := by
  refine (hx.bind fun j p hj => ensures_intern (.methodHandle h.kind.tag j) hj.lt rfl).imp ?_
  rintro i p ⟨j, hj, hi⟩
  exact ⟨j, hi, hj⟩

theorem ensures_handle (h : MethodHandle) : Ensures (handle h) [] fun i p => p.IsHandle i h := by
  obtain ⟨kind, target⟩ := h
  cases kind with
  | getField | getStatic | putField | putStatic => exact (ensures_fieldRef target).handle
  | invokeInterface => exact (ensures_interfaceMethodRef target).handle
  | invokeVirtual | invokeStatic | invokeSpecial | newInvokeSpecial =>
    exact (ensures_methodRef target).handle

theorem ensures_invokeDynamic {bootstrap : Nat} (hb : bootstrap < 65536)
    (name descriptor : String) :
    Ensures (invokeDynamic bootstrap name descriptor) [] fun i p =>
      ∃ j, p.get? i = some (.invokeDynamic bootstrap j) ∧ p.IsNameAndType j name descriptor := by
  refine ((ensures_nameAndType name descriptor).bind fun j _ hj =>
    ensures_intern (.invokeDynamic bootstrap j) ⟨hb, hj.lt⟩ rfl).imp ?_
  rintro i p ⟨j, hj, hi⟩
  exact ⟨j, hi, hj⟩

theorem ensures_integer (value : Int32) :
    Ensures (integer value) [] fun i p => p.get? i = some (.integer value) :=
  ensures_intern (.integer value) trivial rfl

/-- A text that is asked for as a string constant again has its constant already. -/
theorem Holds.string {p p' : ConstantPool} {loaded : List String} {text : String} {i j : Nat}
    (h : p.Holds loaded) (hj : p.IsText j text) (hok : intern (.string j) p = .ok i p') :
    p'.Holds (loaded ++ [text]) := by
  have hfits := fits_of_intern hok hj.lt h.fits
  refine ⟨hfits, ?_⟩
  rcases (intern_ok hok).2 with rfl | ⟨hnew, hnotMem⟩
  · have hmem : Constant.string j ∈ p'.table.toList.filter Constant.isString :=
      List.mem_filter.2 ⟨mem_of_get? (intern_ok hok).1, rfl⟩
    obtain ⟨text', htext', i', heq, hi'⟩ := exists_of_mem_left h.loads hmem
    cases heq
    obtain rfl : text = text' := IsText.inj hj hi'
    rw [eraseDups_concat_of_mem (List.mem_eraseDups.1 htext')]
    exact h.loads
  · have hnot : text ∉ loaded := by
      intro hmem
      obtain ⟨c, hc, i', rfl, hi'⟩ := exists_of_mem_right h.loads (List.mem_eraseDups.2 hmem)
      obtain rfl : j = i' := IsText.unique hj hi'
      exact hnotMem (List.mem_filter.1 hc).1
    have hgrows := intern_grows hok
    rw [eraseDups_concat_of_notMem hnot, Loads, hnew, List.filter_append]
    refine List.rel_append (h.loads.imp ?_) (.cons ⟨j, rfl, hgrows.get? hj⟩ .nil)
    rintro c text ⟨i', hi', htext⟩
    exact ⟨i', hi', hgrows.get? htext⟩

theorem ensures_string (text : String) :
    Ensures (string text) [text] fun i p => p.IsString i text := by
  intro p i p' loaded hp h
  obtain ⟨j, middle, hfirst, hsecond⟩ := bind_ok h
  obtain ⟨hgrows, hholds, htext⟩ := ensures_utf8 text p j middle loaded hp hfirst
  rw [List.append_nil] at hholds
  have hgrows' := intern_grows hsecond
  exact ⟨hgrows.trans hgrows', hholds.string (htext middle (.refl _)) hsecond, fun later hlater =>
    ⟨j, hlater.get? (intern_ok hsecond).1, htext later (hgrows'.trans hlater)⟩⟩

end ConstantPool

def Constant.entry : Constant → PoolEntry
  | utf8 text => .utf8 text
  | classRef i => .classRef i
  | string i => .string i
  | _ => .other

namespace Reader

theorem reads_skipped (n : Nat) {bytes : List UInt8} (h : bytes.length = n) :
    (skip n >>= fun _ => pure [PoolEntry.other]).Reads bytes [.other] := by
  subst h
  have hreads := (reads_skip bytes).bind (f := fun _ => pure [PoolEntry.other]) (reads_pure _)
  rwa [List.append_nil] at hreads

theorem reads_number {n : Nat} (h : n < 65536) (make : Nat → PoolEntry) :
    (u16 >>= fun i => pure [make i]).Reads (Word.bytes2 n) [make n] := by
  have hreads := (reads_u16 h).bind (f := fun i => pure [make i]) (reads_pure _)
  rwa [List.append_nil] at hreads

theorem reads_poolPayload (index : UInt16) {c : Constant} (h : c.Fits) :
    (poolPayload index c.tag.toNat).Reads c.payload [c.entry] := by
  cases c with
  | utf8 text =>
    have hlength : (ModifiedUtf8.encode text).length < 65536 := by
      rw [ModifiedUtf8.length_encode]
      exact Nat.lt_succ_of_le h
    have hreads := (reads_take (ModifiedUtf8.encode text)).bind
      (f := fun bytes => pure [PoolEntry.utf8 (ModifiedUtf8.decode bytes)]) (reads_pure _)
    rw [ModifiedUtf8.decode_encode, List.append_nil] at hreads
    exact (reads_u16 hlength).bind
      (f := fun n => take n >>= fun bytes => pure [PoolEntry.utf8 (ModifiedUtf8.decode bytes)])
      hreads
  | classRef i => exact reads_number h .classRef
  | string i => exact reads_number h .string
  | integer value => exact reads_skipped 4 rfl
  | fieldRef i j | methodRef i j | interfaceMethodRef i j | nameAndType i j | invokeDynamic i j =>
    exact reads_skipped 4 rfl
  | methodHandle kind reference => exact reads_skipped 3 rfl
  | methodType i => exact reads_skipped 2 rfl

theorem reads_poolEntry (index : UInt16) {c : Constant} (h : c.Fits) :
    (poolEntry index).Reads c.bytes [c.entry] :=
  (reads_u8 c.tag).bind (reads_poolPayload index h)

/-- Constants are read one after the other up to the count. -/
theorem poolEntries_eq {constants : List Constant} (hfits : ∀ c ∈ constants, c.Fits)
    {count index : UInt16} (hcount : index.toNat + constants.length = count.toNat)
    (table : PoolTable) (rest : List UInt8) (position : Nat) :
    poolEntries count index table ⟨constants.flatMap Constant.bytes ++ rest, position⟩ =
      .ok (table ++ constants.map Constant.entry,
        ⟨rest, position + (constants.flatMap Constant.bytes).length⟩) := by
  induction constants generalizing index table position with
  | nil =>
    have hdone : ¬index < count := by
      rw [UInt16.lt_iff_toNat_lt]
      simp at hcount
      omega
    rw [poolEntries, if_neg hdone]
    simp
  | cons c constants ih =>
    obtain ⟨hc, hrest⟩ := List.forall_mem_cons.1 hfits
    rw [List.length_cons] at hcount
    have hmore : index < count := by
      rw [UInt16.lt_iff_toNat_lt]
      omega
    have hnext : (index + 1).toNat = index.toNat + 1 := by
      have := count.toNat_lt
      rw [UInt16.toNat_add]
      simp
      omega
    have hread := reads_poolEntry index hc (constants.flatMap Constant.bytes ++ rest) position
    rw [poolEntries, if_pos hmore, List.flatMap_cons, List.append_assoc]
    split
    · rename_i fault hfault
      rw [hread] at hfault
      cases hfault
    · rename_i entries cursor hok
      rw [hread] at hok
      cases hok
      have hnow : (index + 1).toNat + constants.length = count.toNat := by omega
      have hstep := ih hrest hnow (table ++ [c.entry]) (position + c.bytes.length)
      simp only [List.length_singleton]
      refine hstep.trans ?_
      simp [Nat.add_assoc]

end Reader

namespace ConstantPool

def entries (p : ConstantPool) : PoolTable :=
  #[PoolEntry.unusable] ++ p.table.toList.map Constant.entry

variable {p : ConstantPool} {i : Nat}

theorem reads_poolTable (h : ∀ c ∈ p.table.toList, c.Fits) :
    Reader.poolTable.Reads (Word.bytes2 p.count ++ p.bytes) p.entries := by
  have hsize : p.table.toList.length < 65535 := by
    have hlt := p.size_lt
    rwa [Numbering.size, ← Array.length_toList] at hlt
  have hcount : p.count = p.table.toList.length + 1 := by
    rw [count, Numbering.size, ← Array.length_toList, Numbering.toList]
  have hread : Reader.u16.Reads (Word.bytes2 p.count) p.count := Reader.reads_u16 (by omega)
  refine hread.bind (f := fun count => Reader.poolEntries count.toUInt16 1 #[.unusable])
    fun rest position => ?_
  refine Reader.poolEntries_eq h ?_ _ rest position
  have htoNat : p.count.toUInt16.toNat = p.count := by
    rw [Nat.toUInt16, UInt16.toNat_ofNat']
    omega
  rw [htoNat, hcount]
  exact Nat.add_comm _ _

theorem entries_get? {c : Constant} (h : p.get? i = some c) : p.entries[i]? = some c.entry := by
  obtain ⟨j, rfl, hj⟩ := get?_eq_some.1 h
  simp [entries, hj]

theorem utf8_entries {text : String} (h : p.IsText i text) : p.entries.utf8 i = .ok text := by
  rw [PoolTable.utf8, entries_get? h]
  rfl

theorem className_entries {name : String} (h : p.IsClass i name) :
    p.entries.className i = .ok name := by
  obtain ⟨j, hj, hname⟩ := h
  rw [PoolTable.className, entries_get? hj]
  exact utf8_entries hname

def text? (table : PoolTable) : PoolEntry → Option String
  | .string i => (table.utf8 i).toOption
  | _ => none

theorem filterMap_text? {constants : List Constant} {texts : List String}
    (h : List.Forall₂ (fun c text => ∃ i, c = .string i ∧ p.get? i = some (.utf8 text))
      (constants.filter Constant.isString) texts) :
    (constants.map Constant.entry).filterMap (text? p.entries) = texts := by
  induction constants generalizing texts with
  | nil =>
    cases h
    rfl
  | cons c constants ih =>
    cases c with
    | string i =>
      obtain _ | ⟨⟨j, heq, htext⟩, hrest⟩ := h
      cases heq
      rw [List.map_cons, List.filterMap_cons, ih hrest, Constant.entry, text?, utf8_entries htext]
      rfl
    | _ => exact ih h

/-- A reader finds the texts of the string constants. -/
theorem strings_entries {texts : List String} (h : p.Loads texts) :
    p.entries.strings = texts := by
  have hlist : p.entries.toList = .unusable :: p.table.toList.map Constant.entry := by
    simp [entries]
  calc p.entries.strings = p.entries.toList.filterMap (text? p.entries) := rfl
    _ = (p.table.toList.map Constant.entry).filterMap (text? p.entries) := by rw [hlist]; rfl
    _ = texts := filterMap_text? h

end ConstantPool

end SmalltalkJvm
