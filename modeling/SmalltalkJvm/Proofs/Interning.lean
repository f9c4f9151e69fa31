import Mathlib.Data.List.Nodup
import SmalltalkJvm.Proofs.Decoding

/-! # Pools after any requests

A pool is asked for constants one after the other, and each request is granted or refused. Whatever
came before, the constants are distinct, and those that a constant refers to stand before it and are
of the kinds that the class-file format asks for. A number that was given once keeps its meaning and
is given again. A request is refused only for a text that is too long or for want of room, and what
it added on the way leaves the constants before it as they were.
-/

namespace SmalltalkJvm

/-- The numbers by which a constant refers to others, each with the tag that the format asks for
there. No constant has the tag 0, which stands for a handle of unknown kind. -/
def Constant.references : Constant → List (Nat × UInt8)
  | utf8 _ | integer _ => []
  | classRef i | string i | methodType i => [(i, 1)]
  | nameAndType i j => [(i, 1), (j, 1)]
  | fieldRef i j | methodRef i j | interfaceMethodRef i j => [(i, 7), (j, 12)]
  | methodHandle kind i => [(i, ((HandleKind.read? kind).map HandleKind.memberTag).getD 0)]
  | invokeDynamic _ i => [(i, 12)]

theorem HandleKind.tag_member (kind : HandleKind) (i j : Nat) :
    (kind.member i j).tag = kind.memberTag := by
  cases kind <;> rfl

namespace ConstantPool

/-- Texts fit their length fields, and every reference goes back to a constant of the kind that the
format asks for. -/
structure WellFormed (p : ConstantPool) : Prop where
  texts : ∀ i text, p.get? i = some (.utf8 text) → (ModifiedUtf8.encode text).length ≤ 65535
  references : ∀ i c, p.get? i = some c → ∀ r ∈ c.references,
    r.1 < i ∧ (p.get? r.1).map Constant.tag = some r.2

structure Admits (p : ConstantPool) (c : Constant) : Prop where
  text : ∀ text, c = .utf8 text → (ModifiedUtf8.encode text).length ≤ 65535
  references : ∀ r ∈ c.references, (p.get? r.1).map Constant.tag = some r.2

theorem wellFormed_empty : empty.WellFormed := by
  have hnone (i : Nat) (c : Constant) : empty.get? i ≠ some c := by
    intro h
    obtain ⟨j, -, hj⟩ := get?_eq_some.1 h
    simp [empty, Numbering.empty, Numbering.toList] at hj
  exact ⟨fun i text h => absurd h (hnone i _), fun i c h => absurd h (hnone i c)⟩

theorem lt_of_map_get? {p : ConstantPool} {i : Nat} {tag : UInt8}
    (h : (p.get? i).map Constant.tag = some tag) : i < p.table.toList.length + 1 := by
  obtain ⟨c, hc, -⟩ := Option.map_eq_some_iff.1 h
  obtain ⟨j, rfl, hj⟩ := get?_eq_some.1 hc
  have hlt := (List.getElem?_eq_some_iff.1 hj).1
  omega

theorem Grows.map_get? {p p' : ConstantPool} (h : p.Grows p') {i : Nat} {tag : UInt8}
    (hi : (p.get? i).map Constant.tag = some tag) : (p'.get? i).map Constant.tag = some tag := by
  obtain ⟨c, hc, htag⟩ := Option.map_eq_some_iff.1 hi
  rw [h.get? hc, Option.map_some, htag]

/-- A constant after another pool's is one of them, or the new one behind them. -/
theorem get?_of_concat {p p' : ConstantPool} {c d : Constant} {i : Nat}
    (h : p'.table.toList = p.table.toList ++ [c]) (hi : p'.get? i = some d) :
    p.get? i = some d ∨ i = p.table.toList.length + 1 ∧ d = c := by
  obtain ⟨j, rfl, hj⟩ := get?_eq_some.1 hi
  rw [h] at hj
  by_cases hlt : j < p.table.toList.length
  · rw [List.getElem?_append_left hlt] at hj
    exact .inl (get?_eq_some.2 ⟨j, rfl, hj⟩)
  · obtain ⟨hlength, -⟩ := List.getElem?_eq_some_iff.1 hj
    simp only [List.length_append, List.length_singleton] at hlength
    obtain rfl : j = p.table.toList.length := by omega
    rw [List.getElem?_concat_length] at hj
    exact .inr ⟨rfl, (Option.some.inj hj).symm⟩

theorem WellFormed.concat {p p' : ConstantPool} {c : Constant} (hp : p.WellFormed)
    (hc : p.Admits c) (h : p'.table.toList = p.table.toList ++ [c]) : p'.WellFormed := by
  have hgrows : p.Grows p' := ⟨[c], h.symm⟩
  constructor
  · intro i text hi
    rcases get?_of_concat h hi with hold | ⟨-, hnew⟩
    · exact hp.texts i text hold
    · exact hc.text text hnew.symm
  · intro i d hi r hr
    rcases get?_of_concat h hi with hold | ⟨rfl, rfl⟩
    · obtain ⟨hlt, htag⟩ := hp.references i d hold r hr
      exact ⟨hlt, hgrows.map_get? htag⟩
    · have htag := hc.references r hr
      exact ⟨lt_of_map_get? htag, hgrows.map_get? htag⟩

/-- No constant has two numbers. -/
theorem nodup_constants (p : ConstantPool) : p.table.toList.Nodup := by
  rw [List.nodup_iff_getElem?_ne_getElem?]
  intro i j hij hj hsame
  obtain ⟨c, hc⟩ : ∃ c, p.table.toList[j]? = some c := ⟨_, List.getElem?_eq_getElem hj⟩
  have heq : i + 1 = j + 1 :=
    eq_of_get? (get?_eq_some.2 ⟨i, rfl, hsame.trans hc⟩) (get?_eq_some.2 ⟨j, rfl, hc⟩)
  omega

/-- A constant that the pool has is found. -/
theorem intern_of_get? {c : Constant} {p : ConstantPool} {i : Nat} (h : p.get? i = some c) :
    intern c p = .ok i p := by
  obtain ⟨table, size_lt⟩ := p
  obtain ⟨j, rfl, hj⟩ := get?_eq_some.1 h
  rw [Numbering.toList, Array.getElem?_toList] at hj
  have hplace := (table.place?_eq_some_iff c j).2 hj
  simp only [intern]
  split
  · rename_i k hk
    rw [hplace] at hk
    cases hk
    rfl
  · rename_i hnone
    rw [hplace] at hnone
    cases hnone

theorem intern_error {c : Constant} {p p' : ConstantPool} {fault : AssemblyFault}
    (h : intern c p = .error fault p') :
    fault = .poolOverflow ∧ p' = p ∧ p.table.toList.length = 65534 ∧ ¬∃ i, p.get? i = some c := by
  have habsent : ¬∃ i, p.get? i = some c := by
    rintro ⟨i, hi⟩
    rw [intern_of_get? hi] at h
    cases h
  obtain ⟨table, size_lt⟩ := p
  have hlength : table.toList.length = table.size := rfl
  simp only [intern] at h
  split at h
  · cases h
  · split_ifs at h with hroom
    cases h
    refine ⟨rfl, rfl, ?_, habsent⟩
    change table.toList.length = 65534
    omega

section

variable {α β : Type}

def after (p : ConstantPool) (r : Request α) : ConstantPool :=
  match r p with
  | .ok _ p' => p'
  | .error _ p' => p'

theorem after_of_ok {r : Request α} {p p' : ConstantPool} {a : α} (h : r p = .ok a p') :
    p.after r = p' := by
  rw [after, h]

theorem after_of_error {r : Request α} {p p' : ConstantPool} {fault : AssemblyFault}
    (h : r p = .error fault p') : p.after r = p' := by
  rw [after, h]

/-- Why a request about some texts is refused: one of them is too long, or all numbers are taken and
none of them stands for what was asked. The pool is the one that the request leaves. -/
def IsRefusal (texts : List String) (Q : α → ConstantPool → Prop) (fault : AssemblyFault)
    (p : ConstantPool) : Prop :=
  fault = .textTooLong ∧ (∃ text ∈ texts, 65535 < (ModifiedUtf8.encode text).length) ∨
    fault = .poolOverflow ∧ p.table.toList.length = 65534 ∧ ¬∃ a, Q a p

/-- A request about some texts that gives what `Q` describes. The pool only grows; where the request
may be made, it stays well-formed. What is granted holds from then on, and asking for it again gives
the same. -/
structure Settles (needs : ConstantPool → Prop) (r : Request α) (texts : List String)
    (Q : α → ConstantPool → Prop) : Prop where
  grows (p : ConstantPool) : p.Grows (p.after r)
  wellFormed {p : ConstantPool} : needs p → p.WellFormed → (p.after r).WellFormed
  granted {p p' : ConstantPool} {a : α} : r p = .ok a p' → ∀ later, p'.Grows later → Q a later
  refused {p p' : ConstantPool} {fault : AssemblyFault} : needs p → p.WellFormed →
    r p = .error fault p' → IsRefusal texts Q fault p'
  again {p : ConstantPool} {a : α} : p.WellFormed → Q a p → r p = .ok a p

variable {needs needs' : ConstantPool → Prop} {texts texts' : List String}
  {Q Q' : α → ConstantPool → Prop} {R : α → β → ConstantPool → Prop}

theorem Settles.congr {r : Request α} (h : Settles needs r texts Q)
    (htexts : texts ⊆ texts') (hQ : ∀ a p, Q a p ↔ Q' a p) : Settles needs r texts' Q' := by
  obtain rfl : Q = Q' := by
    funext a p
    exact propext (hQ a p)
  refine ⟨h.grows, h.wellFormed, h.granted, fun hneeds hp herror => ?_, h.again⟩
  rcases h.refused hneeds hp herror with ⟨hfault, text, htext, hlong⟩ | hfull
  · exact .inl ⟨hfault, text, htexts htext, hlong⟩
  · exact .inr hfull

/-- A request that depends on the answer to another. If the second one is refused for want of room,
nothing in the pool stands for the whole, since the first answer is the only one. -/
theorem Settles.bind {r : Request α} {f : α → Request β} (hr : Settles (fun _ => True) r texts Q)
    (hneeds : ∀ p p', p.Grows p' → needs p → needs p')
    (hf : ∀ a, Settles (fun p => needs p ∧ Q a p) (f a) texts' (R a)) :
    Settles needs (r >>= f) (texts ++ texts') fun b p => ∃ a, Q a p ∧ R a b p := by
  have hok {p p' : ConstantPool} {a : α} (h : r p = .ok a p') : (r >>= f) p = f a p' :=
    bind_of_ok h f
  have herror {p p' : ConstantPool} {fault : AssemblyFault} (h : r p = .error fault p') :
      (r >>= f) p = .error fault p' := by
    change EStateM.bind r f p = _
    simp [EStateM.bind, h]
  -- what is known between the two requests
  have hmiddle {p p' : ConstantPool} {a : α} (h : r p = .ok a p') :
      p.Grows p' ∧ (p.WellFormed → p'.WellFormed) ∧ Q a p' := by
    have hafter := after_of_ok h
    refine ⟨hafter ▸ hr.grows p, fun hp => hafter ▸ hr.wellFormed trivial hp, ?_⟩
    exact hr.granted h p' (.refl _)
  constructor
  · intro p
    cases h : r p with
    | ok a p' =>
      rw [after, hok h]
      exact (hmiddle h).1.trans ((hf a).grows p')
    | error fault p' =>
      rw [after_of_error (herror h), ← after_of_error h]
      exact hr.grows p
  · intro p hp hwf
    cases h : r p with
    | ok a p' =>
      obtain ⟨hgrows, hwf', hq⟩ := hmiddle h
      rw [after, hok h]
      exact (hf a).wellFormed ⟨hneeds p p' hgrows hp, hq⟩ (hwf' hwf)
    | error fault p' =>
      rw [after_of_error (herror h), ← after_of_error h]
      exact hr.wellFormed trivial hwf
  · intro p p' b h later hlater
    obtain ⟨a, middle, hfirst, hsecond⟩ := bind_ok h
    have hgrows : middle.Grows p' := after_of_ok hsecond ▸ (hf a).grows middle
    exact ⟨a, hr.granted hfirst later (hgrows.trans hlater), (hf a).granted hsecond later hlater⟩
  · intro p p' fault hp hwf h
    cases hfirst : r p with
    | error fault' middle =>
      rw [herror hfirst] at h
      cases h
      rcases hr.refused trivial hwf hfirst with
        ⟨hfault, text, htext, hlong⟩ | ⟨hfault, hfull, hnone⟩
      · exact .inl ⟨hfault, text, List.mem_append_left _ htext, hlong⟩
      · exact .inr ⟨hfault, hfull, fun ⟨b, a, ha, _⟩ => hnone ⟨a, ha⟩⟩
    | ok a middle =>
      obtain ⟨hgrows, hwf', hq⟩ := hmiddle hfirst
      have hnext : needs middle ∧ Q a middle := ⟨hneeds p middle hgrows hp, hq⟩
      rw [hok hfirst] at h
      have hlast : (middle.after (f a)).WellFormed := (hf a).wellFormed hnext (hwf' hwf)
      have hkept : middle.Grows p' := after_of_error h ▸ (hf a).grows middle
      rw [after_of_error h] at hlast
      rcases (hf a).refused hnext (hwf' hwf) h with ⟨hfault, text, htext, hlong⟩ |
        ⟨hfault, hfull, hnone⟩
      · exact .inl ⟨hfault, text, List.mem_append_right _ htext, hlong⟩
      · refine .inr ⟨hfault, hfull, ?_⟩
        rintro ⟨b, a', ha', hb⟩
        have hfound := hr.again hlast (hr.granted hfirst p' hkept)
        rw [hr.again hlast ha'] at hfound
        cases hfound
        exact hnone ⟨b, hb⟩
  · rintro p b hp ⟨a, ha, hb⟩
    rw [hok (hr.again hp ha)]
    exact (hf a).again hp hb

end

theorem settles_intern {needs : ConstantPool → Prop} {c : Constant}
    (h : ∀ p, needs p → p.Admits c) :
    Settles needs (intern c) [] fun i p => p.get? i = some c := by
  constructor
  · intro p
    cases hc : intern c p with
    | ok i p' => exact after_of_ok hc ▸ intern_grows hc
    | error fault p' => exact after_of_error hc ▸ (intern_error hc).2.1 ▸ .refl _
  · intro p hp hwf
    cases hc : intern c p with
    | ok i p' =>
      rw [after_of_ok hc]
      rcases (intern_ok hc).2 with rfl | ⟨hnew, -⟩
      · exact hwf
      · exact hwf.concat (h p hp) hnew
    | error fault p' =>
      rw [after_of_error hc, (intern_error hc).2.1]
      exact hwf
  · intro p p' i hc later hlater
    exact hlater.get? (intern_ok hc).1
  · intro p p' fault _ _ hc
    obtain ⟨hfault, rfl, hfull, hnone⟩ := intern_error hc
    exact .inr ⟨hfault, hfull, hnone⟩
  · intro p i _ hi
    exact intern_of_get? hi

theorem settles_utf8 (text : String) :
    Settles (fun _ => True) (utf8 text) [text] fun i p => p.IsText i text := by
  unfold utf8
  split_ifs with hsize
  · refine (settles_intern fun p _ => ⟨?_, ?_⟩).congr (List.nil_subset _) fun _ _ => Iff.rfl
    · rintro _ ⟨⟩
      rwa [ModifiedUtf8.length_encode]
    · simp [Constant.references]
  · have hlong : 65535 < (ModifiedUtf8.encode text).length := by
      rw [ModifiedUtf8.length_encode]
      omega
    constructor
    · intro p
      exact .refl p
    · intro p _ hp
      exact hp
    · rintro p p' i ⟨⟩
    · rintro p p' fault _ _ ⟨⟩
      exact .inl ⟨rfl, text, List.mem_singleton_self text, hlong⟩
    · intro p i hp hi
      have hle := hp.texts i text hi
      omega

/-- A constant that refers to the one asked for before it. -/
theorem Settles.thenIntern {r : Request Nat} {texts : List String} {Q : Nat → ConstantPool → Prop}
    {make : Nat → Constant} (hr : Settles (fun _ => True) r texts Q) (tag : UInt8)
    (hQ : ∀ i p, Q i p → (p.get? i).map Constant.tag = some tag)
    (hmake : ∀ i, (make i).references = [(i, tag)]) (hother : ∀ i text, make i ≠ .utf8 text) :
    Settles (fun _ => True) (r >>= fun i => intern (make i)) texts fun k p =>
      ∃ i, p.get? k = some (make i) ∧ Q i p := by
  have hadmits (i : Nat) (p : ConstantPool) (hi : True ∧ Q i p) : p.Admits (make i) := by
    constructor
    · intro text h
      exact absurd h (hother i text)
    · rw [hmake]
      exact List.forall_mem_singleton.2 (hQ i p hi.2)
  refine (hr.bind (fun _ _ _ => id) fun i => settles_intern (hadmits i)).congr (by simp) ?_
  intro k p
  simp only [and_comm]

theorem settles_classRef (name : String) :
    Settles (fun _ => True) (classRef name) [name] fun i p => p.IsClass i name :=
  (settles_utf8 name).thenIntern 1 (fun i p h => by rw [h]; rfl) (fun _ => rfl) (by simp)

theorem settles_string (text : String) :
    Settles (fun _ => True) (string text) [text] fun i p => p.IsString i text :=
  (settles_utf8 text).thenIntern 1 (fun i p h => by rw [h]; rfl) (fun _ => rfl) (by simp)

theorem settles_methodType (descriptor : String) :
    Settles (fun _ => True) (methodType descriptor) [descriptor] fun i p =>
      p.IsMethodType i descriptor :=
  (settles_utf8 descriptor).thenIntern 1 (fun i p h => by rw [h]; rfl) (fun _ => rfl) (by simp)

/-- A constant that refers to the two asked for before it. -/
theorem Settles.thenInternBoth {r r' : Request Nat} {texts texts' : List String}
    {Q Q' : Nat → ConstantPool → Prop} {make : Nat → Nat → Constant} {tag tag' : UInt8}
    (hr : Settles (fun _ => True) r texts Q) (hr' : Settles (fun _ => True) r' texts' Q')
    (hgrows : ∀ i p p', p.Grows p' → Q i p → Q i p')
    (hQ : ∀ i p, Q i p → (p.get? i).map Constant.tag = some tag)
    (hQ' : ∀ i p, Q' i p → (p.get? i).map Constant.tag = some tag')
    (hmake : ∀ i j, (make i j).references = [(i, tag), (j, tag')])
    (hother : ∀ i j text, make i j ≠ .utf8 text) :
    Settles (fun _ => True) (r >>= fun i => r' >>= fun j => intern (make i j)) (texts ++ texts')
      fun k p => ∃ i j, p.get? k = some (make i j) ∧ Q i p ∧ Q' j p := by
  have hadmits (i j : Nat) (p : ConstantPool) (h : (True ∧ Q i p) ∧ Q' j p) :
      p.Admits (make i j) := by
    constructor
    · intro text h
      exact absurd h (hother i j text)
    · rw [hmake]
      exact List.forall_mem_cons.2 ⟨hQ i p h.1.2, List.forall_mem_singleton.2 (hQ' j p h.2)⟩
  have hinner (i : Nat) := hr'.bind (fun p p' hle h => ⟨trivial, hgrows i p p' hle h.2⟩) fun j =>
    settles_intern (hadmits i j)
  refine (hr.bind (fun _ _ _ => id) hinner).congr (by simp) ?_
  intro k p
  constructor
  · rintro ⟨i, hi, j, hj, hk⟩
    exact ⟨i, j, hk, hi, hj⟩
  · rintro ⟨i, j, hk, hi, hj⟩
    exact ⟨i, hi, j, hj, hk⟩

theorem settles_nameAndType (name descriptor : String) :
    Settles (fun _ => True) (nameAndType name descriptor) [name, descriptor] fun i p =>
      p.IsNameAndType i name descriptor :=
  (settles_utf8 name).thenInternBoth (settles_utf8 descriptor) (fun _ _ _ h => h.isText)
    (fun i p h => by rw [h]; rfl) (fun i p h => by rw [h]; rfl) (fun _ _ => rfl) (by simp)

theorem IsClass.tag {p : ConstantPool} {i : Nat} {name : String} (h : p.IsClass i name) :
    (p.get? i).map Constant.tag = some 7 := by
  obtain ⟨j, hj, -⟩ := h
  rw [hj]
  rfl

theorem IsNameAndType.tag {p : ConstantPool} {i : Nat} {name descriptor : String}
    (h : p.IsNameAndType i name descriptor) : (p.get? i).map Constant.tag = some 12 := by
  obtain ⟨j, k, hjk, -⟩ := h
  rw [hjk]
  rfl

theorem settles_member {make : Nat → Nat → Constant}
    (hmake : ∀ i j, (make i j).references = [(i, 7), (j, 12)])
    (hother : ∀ i j text, make i j ≠ .utf8 text) (m : MemberRef) :
    Settles (fun _ => True) (do
      let owner ← classRef m.owner
      let nameAndType ← nameAndType m.name m.descriptor
      intern (make owner nameAndType)) m.texts fun i p => IsMember make p i m :=
  (settles_classRef m.owner).thenInternBoth (settles_nameAndType m.name m.descriptor)
    (fun _ _ _ h => h.isClass) (fun _ _ => IsClass.tag) (fun _ _ => IsNameAndType.tag) hmake hother

theorem settles_fieldRef (m : MemberRef) :
    Settles (fun _ => True) (fieldRef m) m.texts fun i p => IsMember .fieldRef p i m :=
  settles_member (fun _ _ => rfl) (by simp) m

theorem settles_methodRef (m : MemberRef) :
    Settles (fun _ => True) (methodRef m) m.texts fun i p => IsMember .methodRef p i m :=
  settles_member (fun _ _ => rfl) (by simp) m

theorem settles_interfaceMethodRef (m : MemberRef) :
    Settles (fun _ => True) (interfaceMethodRef m) m.texts fun i p =>
      IsMember .interfaceMethodRef p i m :=
  settles_member (fun _ _ => rfl) (by simp) m

theorem Settles.thenHandle {r : Request Nat} {h : MethodHandle}
    (hr : Settles (fun _ => True) r h.target.texts fun i p => IsMember h.kind.member p i h.target) :
    Settles (fun _ => True) (r >>= fun i => intern (.methodHandle h.kind.tag i)) h.target.texts
      fun i p => p.IsHandle i h := by
  refine hr.thenIntern h.kind.memberTag ?_ ?_ (by simp)
  · rintro i p ⟨j, k, hjk, -⟩
    rw [hjk, Option.map_some, HandleKind.tag_member]
  · intro i
    rw [Constant.references, HandleKind.read?_tag]
    rfl

theorem settles_handle (h : MethodHandle) :
    Settles (fun _ => True) (handle h) h.target.texts fun i p => p.IsHandle i h := by
  obtain ⟨kind, target⟩ := h
  cases kind with
  | getField | getStatic | putField | putStatic => exact (settles_fieldRef target).thenHandle
  | invokeInterface => exact (settles_interfaceMethodRef target).thenHandle
  | invokeVirtual | invokeStatic | invokeSpecial | newInvokeSpecial =>
    exact (settles_methodRef target).thenHandle

theorem settles_invokeDynamic (bootstrap : Nat) (name descriptor : String) :
    Settles (fun _ => True) (invokeDynamic bootstrap name descriptor) [name, descriptor] fun i p =>
      ∃ j, p.get? i = some (.invokeDynamic bootstrap j) ∧ p.IsNameAndType j name descriptor :=
  (settles_nameAndType name descriptor).thenIntern 12 (fun _ _ => IsNameAndType.tag)
    (fun _ => rfl) (by simp)

theorem settles_integer (value : Int32) :
    Settles (fun _ => True) (integer value) [] fun i p => p.get? i = some (.integer value) :=
  settles_intern fun _ _ => ⟨by simp, by simp [Constant.references]⟩

inductive Demand where
  | utf8 (text : String)
  | integer (value : Int32)
  | classRef (name : String)
  | string (text : String)
  | nameAndType (name descriptor : String)
  | fieldRef (member : MemberRef)
  | methodRef (member : MemberRef)
  | interfaceMethodRef (member : MemberRef)
  | methodType (descriptor : String)
  | invokeDynamic (bootstrap : UInt16) (name descriptor : String)
  | handle (handle : MethodHandle)
  deriving DecidableEq, Repr

namespace Demand

def request : Demand → Request Nat
  | utf8 text => ConstantPool.utf8 text
  | integer value => ConstantPool.integer value
  | classRef name => ConstantPool.classRef name
  | string text => ConstantPool.string text
  | nameAndType name descriptor => ConstantPool.nameAndType name descriptor
  | fieldRef member => ConstantPool.fieldRef member
  | methodRef member => ConstantPool.methodRef member
  | interfaceMethodRef member => ConstantPool.interfaceMethodRef member
  | methodType descriptor => ConstantPool.methodType descriptor
  | invokeDynamic bootstrap name descriptor =>
    ConstantPool.invokeDynamic bootstrap.toNat name descriptor
  | handle h => ConstantPool.handle h

def texts : Demand → List String
  | utf8 text | classRef text | string text | methodType text => [text]
  | integer _ => []
  | nameAndType name descriptor | invokeDynamic _ name descriptor => [name, descriptor]
  | fieldRef member | methodRef member | interfaceMethodRef member => member.texts
  | handle h => h.target.texts

def Denotes (p : ConstantPool) (i : Nat) : Demand → Prop
  | utf8 text => p.IsText i text
  | integer value => p.get? i = some (.integer value)
  | classRef name => p.IsClass i name
  | string text => p.IsString i text
  | nameAndType name descriptor => p.IsNameAndType i name descriptor
  | fieldRef member => IsMember .fieldRef p i member
  | methodRef member => IsMember .methodRef p i member
  | interfaceMethodRef member => IsMember .interfaceMethodRef p i member
  | methodType descriptor => p.IsMethodType i descriptor
  | invokeDynamic bootstrap name descriptor =>
    ∃ j, p.get? i = some (.invokeDynamic bootstrap.toNat j) ∧ p.IsNameAndType j name descriptor
  | handle h => p.IsHandle i h

theorem settles (d : Demand) :
    Settles (fun _ => True) d.request d.texts fun i p => d.Denotes p i := by
  cases d with
  | utf8 text => exact settles_utf8 text
  | integer value => exact settles_integer value
  | classRef name => exact settles_classRef name
  | string text => exact settles_string text
  | nameAndType name descriptor => exact settles_nameAndType name descriptor
  | fieldRef member => exact settles_fieldRef member
  | methodRef member => exact settles_methodRef member
  | interfaceMethodRef member => exact settles_interfaceMethodRef member
  | methodType descriptor => exact settles_methodType descriptor
  | invokeDynamic bootstrap name descriptor =>
    exact settles_invokeDynamic bootstrap.toNat name descriptor
  | handle h => exact settles_handle h

theorem exists_get?_of_denotes {d : Demand} {p : ConstantPool} {i : Nat} (h : d.Denotes p i) :
    ∃ c, p.get? i = some c := by
  cases d with
  | utf8 | integer => exact ⟨_, h⟩
  | classRef | string | methodType | invokeDynamic | handle =>
    obtain ⟨j, hj, -⟩ := h
    exact ⟨_, hj⟩
  | nameAndType | fieldRef | methodRef | interfaceMethodRef =>
    obtain ⟨j, k, hjk, -⟩ := h
    exact ⟨_, hjk⟩

end Demand

def run (p : ConstantPool) (demands : List Demand) : ConstantPool :=
  demands.foldl (fun p d => p.after d.request) p

theorem run_append (p : ConstantPool) (first second : List Demand) :
    p.run (first ++ second) = (p.run first).run second :=
  List.foldl_append

theorem grows_run (p : ConstantPool) (demands : List Demand) : p.Grows (p.run demands) := by
  induction demands generalizing p with
  | nil => exact .refl p
  | cons d demands ih => exact (d.settles.grows p).trans (ih (p.after d.request))

theorem wellFormed_run {p : ConstantPool} (h : p.WellFormed) (demands : List Demand) :
    (p.run demands).WellFormed := by
  induction demands generalizing p with
  | nil => exact h
  | cons d demands ih => exact ih (d.settles.wellFormed trivial h)

structure IsConsistent (p : ConstantPool) : Prop where
  distinct : p.table.toList.Nodup
  references : ∀ i c, p.get? i = some c → ∀ r ∈ c.references,
    r.1 < i ∧ (p.get? r.1).map Constant.tag = some r.2
  count_eq : p.count = p.table.toList.length + 1
  count_le : p.count ≤ 65535

theorem WellFormed.isConsistent {p : ConstantPool} (h : p.WellFormed) : p.IsConsistent where
  distinct := p.nodup_constants
  references := h.references
  count_eq := rfl
  count_le := p.size_lt

/-- What a grant means: the number stands for the demand, and whatever is demanded after it, the
number has the same constant and is given again, which changes nothing. -/
structure Demand.IsGranted (d : Demand) (p : ConstantPool) (i : Nat) : Prop where
  denotes : d.Denotes p i
  constant : ∃ c, ∀ more, (p.run more).get? i = some c
  again : ∀ more, d.request (p.run more) = .ok i (p.run more)

theorem Demand.isGranted_of_ok {d : Demand} {p p' : ConstantPool} {i : Nat} (hp : p.WellFormed)
    (h : d.request p = .ok i p') : d.IsGranted p' i := by
  have hp' : p'.WellFormed := after_of_ok h ▸ d.settles.wellFormed trivial hp
  have hdenotes := d.settles.granted h p' (.refl _)
  obtain ⟨c, hc⟩ := exists_get?_of_denotes hdenotes
  constructor
  · exact hdenotes
  · exact ⟨c, fun more => (p'.grows_run more).get? hc⟩
  · intro more
    exact d.settles.again (wellFormed_run hp' more) (d.settles.granted h _ (p'.grows_run more))

/-- A pool after any demands is consistent and keeps its constants whatever is demanded next. A
demand that is granted gives a number for good. One that is refused has a text that is too long, or
found the pool full and without what it asked for; the constants that were there stay. -/
theorem run_consistent (demands : List Demand) :
    (empty.run demands).IsConsistent ∧
    (∀ more i c, (empty.run demands).get? i = some c →
      (empty.run (demands ++ more)).get? i = some c) ∧
    (∀ d i p, Demand.request d (empty.run demands) = .ok i p → d.IsGranted p i) ∧
    ∀ d fault p, Demand.request d (empty.run demands) = .error fault p →
      IsRefusal d.texts (fun i p => d.Denotes p i) fault p ∧
        ∀ i c, (empty.run demands).get? i = some c → p.get? i = some c := by
  have hwf := wellFormed_run wellFormed_empty demands
  refine ⟨hwf.isConsistent, ?_, ?_, ?_⟩
  · intro more i c hc
    rw [run_append]
    exact (grows_run _ more).get? hc
  · intro d i p h
    exact Demand.isGranted_of_ok hwf h
  · intro d fault p h
    refine ⟨d.settles.refused trivial hwf h, fun i c hc => ?_⟩
    have hgrows := d.settles.grows (empty.run demands)
    rw [after_of_error h] at hgrows
    exact hgrows.get? hc

end ConstantPool
end SmalltalkJvm
