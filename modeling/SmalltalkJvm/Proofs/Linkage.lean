import SmalltalkJvm.Jvm.ClassFile
import SmalltalkJvm.Proofs.Constants

/-! # Linked code

What the methods of a class leave with their linker: string constants for the texts that their code
loads, and a bootstrap table with one entry for each bootstrap method with its arguments that their
call sites name, both in the order of first use.
-/

namespace SmalltalkJvm

def Instruction.text? : Instruction → Option String
  | .constant (.string text) => some text
  | _ => none

def Instruction.bootstrap? : Instruction → Option (MethodHandle × List BootstrapArgument)
  | .dynamic site => some (site.bootstrap, site.arguments)
  | _ => none

def ConstantPool.IsArgument (p : ConstantPool) (i : Nat) : BootstrapArgument → Prop
  | .methodType descriptor => p.IsMethodType i descriptor
  | .handle h => p.IsHandle i h

/-- An entry of the bootstrap table stands for a bootstrap method with its arguments. -/
def ConstantPool.IsBootstrap (p : ConstantPool) (b : Bootstrap)
    (x : MethodHandle × List BootstrapArgument) : Prop :=
  p.IsHandle b.handle x.1 ∧ List.Forall₂ p.IsArgument b.arguments x.2

namespace ConstantPool

variable {p later : ConstantPool}

theorem Grows.isArgument {i : Nat} {a : BootstrapArgument} (h : p.Grows later)
    (hi : p.IsArgument i a) : later.IsArgument i a := by
  cases a with
  | methodType descriptor => exact h.isMethodType hi
  | handle handle => exact h.isHandle hi

theorem Grows.isBootstrap {b : Bootstrap} {x : MethodHandle × List BootstrapArgument}
    (h : p.Grows later) (hb : p.IsBootstrap b x) : later.IsBootstrap b x :=
  ⟨h.isHandle hb.1, hb.2.imp fun _ _ => h.isArgument⟩

theorem IsArgument.inj {i : Nat} {a a' : BootstrapArgument} (h : p.IsArgument i a)
    (h' : p.IsArgument i a') : a = a' := by
  cases a with
  | methodType descriptor =>
    cases a' with
    | methodType descriptor' => rw [IsMethodType.inj h h']
    | handle handle' =>
      obtain ⟨j, hj, -⟩ := h
      obtain ⟨j', hj', -⟩ := h'
      cases hj.symm.trans hj'
  | handle handle =>
    cases a' with
    | methodType descriptor' =>
      obtain ⟨j, hj, -⟩ := h
      obtain ⟨j', hj', -⟩ := h'
      cases hj.symm.trans hj'
    | handle handle' => rw [IsHandle.inj h h']

theorem IsArgument.unique {i j : Nat} {a : BootstrapArgument} (h : p.IsArgument i a)
    (h' : p.IsArgument j a) : i = j := by
  cases a with
  | methodType descriptor => exact IsMethodType.unique h h'
  | handle handle => exact IsHandle.unique h h'

theorem IsBootstrap.inj {b : Bootstrap} {x x' : MethodHandle × List BootstrapArgument}
    (h : p.IsBootstrap b x) (h' : p.IsBootstrap b x') : x = x' := by
  have hunique : Relator.RightUnique p.IsArgument := fun _ _ _ h h' => h.inj h'
  exact Prod.ext (h.1.inj h'.1) (List.right_unique_forall₂' hunique h.2 h'.2)

theorem IsBootstrap.unique {b b' : Bootstrap} {x : MethodHandle × List BootstrapArgument}
    (h : p.IsBootstrap b x) (h' : p.IsBootstrap b' x) : b = b' := by
  have hunique : Relator.LeftUnique p.IsArgument := fun _ _ _ h h' => h.unique h'
  obtain ⟨handle, arguments⟩ := b
  obtain ⟨handle', arguments'⟩ := b'
  obtain rfl : handle = handle' := h.1.unique h'.1
  obtain rfl : arguments = arguments' := List.left_unique_forall₂' hunique h.2 h'.2
  rfl

end ConstantPool

structure Linker.Grows (l l' : Linker) : Prop where
  pool : l.pool.Grows l'.pool
  bootstraps : l.bootstraps.toList <+: l'.bootstraps.toList

theorem Linker.Grows.refl (l : Linker) : l.Grows l := ⟨.refl _, List.prefix_rfl⟩

theorem Linker.Grows.trans {l l' l'' : Linker} (h : l.Grows l') (k : l'.Grows l'') : l.Grows l'' :=
  ⟨h.pool.trans k.pool, h.bootstraps.trans k.bootstraps⟩

structure Linker.Holds (l : Linker) (code : List Instruction) : Prop where
  pool : l.pool.Holds (code.filterMap Instruction.text?)
  bootstraps : List.Forall₂ l.pool.IsBootstrap l.bootstraps.toList
    (code.filterMap Instruction.bootstrap?).eraseDups

theorem Linker.holds_empty : Linker.Holds {} [] :=
  ⟨⟨by simp [ConstantPool.empty, Numbering.empty, Numbering.toList], .nil⟩, .nil⟩

/-- Code without texts and call sites leaves nothing. -/
theorem Linker.Holds.append {l : Linker} {linked code : List Instruction} (h : l.Holds linked)
    (htexts : code.filterMap Instruction.text? = [])
    (hsites : code.filterMap Instruction.bootstrap? = []) : l.Holds (linked ++ code) :=
  ⟨by rw [List.filterMap_append, htexts, List.append_nil]; exact h.pool,
    by rw [List.filterMap_append, hsites, List.append_nil]; exact h.bootstraps⟩

namespace Link

/-- An action that succeeds links some code, and its result is as described in every later state. -/
def Ensures {α : Type} (x : Link α) (code : List Instruction) (Q : α → Linker → Prop) : Prop :=
  ∀ l a l' linked, l.Holds linked → x l = .ok a l' →
    l.Grows l' ∧ l'.Holds (linked ++ code) ∧ ∀ later, l'.Grows later → Q a later

section

variable {α β : Type} {code code' : List Instruction} {Q : α → Linker → Prop}
  {R : α → β → Linker → Prop}

theorem ensures_pure {a : α} (h : ∀ l, Q a l) (htexts : code.filterMap Instruction.text? = [])
    (hsites : code.filterMap Instruction.bootstrap? = []) : Ensures (pure a) code Q := by
  rintro l a l' linked hl ⟨⟩
  exact ⟨.refl _, hl.append htexts hsites, fun later _ => h later⟩

theorem Ensures.bind {x : Link α} {f : α → Link β} (hx : Ensures x code Q)
    (hf : ∀ a, Ensures (f a) code' (R a)) :
    Ensures (x >>= f) (code ++ code') fun b l => ∃ a, Q a l ∧ R a b l := by
  intro l b l' linked hl h
  obtain ⟨a, middle, hfirst, hsecond⟩ := bind_ok h
  obtain ⟨hgrows, hholds, hq⟩ := hx l a middle linked hl hfirst
  obtain ⟨hgrows', hholds', hr⟩ := hf a middle b l' _ hholds hsecond
  refine ⟨hgrows.trans hgrows', by rwa [← List.append_assoc], fun later hlater => ?_⟩
  exact ⟨a, hq later (hgrows'.trans hlater), hr later hlater⟩

theorem Ensures.imp {x : Link α} {Q' : α → Linker → Prop} (hx : Ensures x code Q)
    (h : ∀ a l, Q a l → Q' a l) : Ensures x code Q' := by
  intro l a l' linked hl hok
  obtain ⟨hgrows, hholds, hq⟩ := hx l a l' linked hl hok
  exact ⟨hgrows, hholds, fun later hlater => h a later (hq later hlater)⟩

theorem Ensures.map {x : Link α} (hx : Ensures x code Q) (f : α → β) :
    Ensures (x >>= fun a => pure (f a)) code fun b l => ∃ a, Q a l ∧ b = f a := by
  have hpure (a : α) : Ensures (pure (f a)) [] fun b _ => b = f a :=
    ensures_pure (fun _ => rfl) rfl rfl
  have hbind := hx.bind hpure
  rwa [List.append_nil] at hbind

theorem Ensures.mapM {γ : Type} {f : γ → Link α} {code : γ → List Instruction}
    {Q : γ → α → Linker → Prop} (h : ∀ x, Ensures (f x) (code x) (Q x)) (xs : List γ) :
    Ensures (xs.mapM f) (xs.flatMap code) fun ys l =>
      List.Forall₂ (fun x y => Q x y l) xs ys := by
  induction xs with
  | nil => exact ensures_pure (fun _ => .nil) rfl rfl
  | cons x xs ih =>
    rw [List.mapM_cons, List.flatMap_cons]
    refine ((h x).bind fun y => ih.map (y :: ·)).imp ?_
    rintro zs l ⟨y, hy, ys, hys, rfl⟩
    exact .cons hy hys

theorem ensures_ofExcept {x : Except AssemblyFault α} :
    Ensures (ofExcept x) [] fun a _ => x = .ok a := by
  intro l a l' linked hl h
  cases x with
  | error fault => cases h
  | ok a =>
    cases h
    exact ⟨.refl _, by rwa [List.append_nil], fun _ _ => rfl⟩

theorem ensures_throw (fault : AssemblyFault) : Ensures (throw fault) code Q := by
  rintro l a l' linked hl ⟨⟩

/-- What is asked of the pool alone. -/
theorem ensures_ofRequest {r : ConstantPool.Request α} {texts : List String}
    {Q : α → ConstantPool → Prop} (h : ConstantPool.Ensures r texts Q)
    (htexts : code.filterMap Instruction.text? = texts)
    (hsites : code.filterMap Instruction.bootstrap? = []) :
    Ensures (ofRequest r) code fun a l => Q a l.pool := by
  rintro ⟨pool, bootstraps⟩ a l' linked hl hok
  simp only [ofRequest] at hok
  split at hok
  · rename_i a pool' hr
    cases hok
    obtain ⟨hgrows, hholds, hq⟩ := h pool a pool' _ hl.pool hr
    refine ⟨⟨hgrows, List.prefix_rfl⟩, ⟨?_, ?_⟩, fun later hlater => hq later.pool hlater.pool⟩
    · rw [List.filterMap_append, htexts]
      exact hholds
    · rw [List.filterMap_append, hsites, List.append_nil]
      exact hl.bootstraps.imp fun _ _ => hgrows.isBootstrap
  · cases hok

end

theorem ensures_argument (a : BootstrapArgument) :
    Ensures (ofRequest (argument a)) [] fun i l => l.pool.IsArgument i a := by
  cases a with
  | methodType descriptor =>
    exact ensures_ofRequest (ConstantPool.ensures_methodType descriptor) rfl rfl
  | handle handle => exact ensures_ofRequest (ConstantPool.ensures_handle handle) rfl rfl

end Link

/-- The number of a call site, whose bootstrap method with its arguments is in the table. -/
def Linker.IsCallSite (l : Linker) (n : Nat) (site : CallSite) : Prop :=
  ∃ place j entry, l.pool.get? n = some (.invokeDynamic (place % 65536) j) ∧
    l.pool.IsNameAndType j site.name site.descriptor ∧
    l.bootstraps.toList[place]? = some entry ∧
    l.pool.IsBootstrap entry (site.bootstrap, site.arguments)

/-- A bootstrap method with its arguments has its entry already, or gets one. -/
theorem Linker.Holds.bootstrapIndex {l l' : Linker} {linked : List Instruction} {entry : Bootstrap}
    {site : CallSite} {k : Nat} (h : l.Holds linked)
    (hentry : l.pool.IsBootstrap entry (site.bootstrap, site.arguments))
    (hok : Link.bootstrapIndex entry l = .ok k l') :
    l.Grows l' ∧ l'.Holds (linked ++ [.dynamic site]) ∧ l'.pool = l.pool ∧
      ∃ place, k = place % 65536 ∧ l'.bootstraps.toList[place]? = some entry := by
  obtain ⟨pool, bootstraps⟩ := l
  have htexts : (linked ++ [Instruction.dynamic site]).filterMap Instruction.text? =
      linked.filterMap Instruction.text? := by
    simp [Instruction.text?]
  have hsites : (linked ++ [Instruction.dynamic site]).filterMap Instruction.bootstrap? =
      linked.filterMap Instruction.bootstrap? ++ [(site.bootstrap, site.arguments)] := by
    simp [Instruction.bootstrap?]
  simp only [Link.bootstrapIndex] at hok
  split at hok
  · rename_i place hplace
    cases hok
    have hget : bootstraps.toList[place]? = some entry := by
      rw [Numbering.toList, Array.getElem?_toList]
      exact (bootstraps.place?_eq_some_iff entry place).1 hplace
    refine ⟨.refl _, ⟨by rw [htexts]; exact h.pool, ?_⟩, rfl, place, rfl, hget⟩
    obtain ⟨x, hx, hsame⟩ := exists_of_mem_left h.bootstraps (List.mem_of_getElem? hget)
    obtain rfl := hentry.inj hsame
    rw [hsites, eraseDups_concat_of_mem (List.mem_eraseDups.1 hx)]
    exact h.bootstraps
  · rename_i hplace
    cases hok
    have hnew : (site.bootstrap, site.arguments) ∉ linked.filterMap Instruction.bootstrap? := by
      intro hmem
      obtain ⟨other, hother, hsame⟩ :=
        exists_of_mem_right h.bootstraps (List.mem_eraseDups.2 hmem)
      obtain rfl := hentry.unique hsame
      obtain ⟨place, hget⟩ := List.mem_iff_getElem?.1 hother
      rw [Numbering.toList, Array.getElem?_toList] at hget
      rw [(bootstraps.place?_eq_some_iff entry place).2 hget] at hplace
      cases hplace
    have hpush := bootstraps.toList_push entry hplace
    refine ⟨⟨.refl _, ?_⟩, ⟨by rw [htexts]; exact h.pool, ?_⟩, rfl, bootstraps.size, rfl, ?_⟩
    · exact ⟨[entry], hpush.symm⟩
    · rw [hsites, eraseDups_concat_of_notMem hnew]
      simp only [hpush]
      exact List.rel_append h.bootstraps (.cons hentry .nil)
    · simp only [hpush]
      simp [Numbering.toList, Numbering.size]

theorem Linker.Grows.isCallSite {l l' : Linker} (h : l.Grows l') {n : Nat} {site : CallSite}
    (hn : l.IsCallSite n site) : l'.IsCallSite n site := by
  obtain ⟨place, j, entry, hget, ⟨m, d, hmd, hname, hdescriptor⟩, hentry, hbootstrap⟩ := hn
  obtain ⟨more, hmore⟩ := h.bootstraps
  refine ⟨place, j, entry, h.pool.get? hget, ⟨m, d, h.pool.get? hmd, h.pool.isText hname,
    h.pool.isText hdescriptor⟩, ?_, h.pool.isBootstrap hbootstrap⟩
  rw [← hmore, List.getElem?_append_left (List.getElem?_eq_some_iff.1 hentry).1, hentry]

theorem Link.ensures_callSite (site : CallSite) :
    Ensures (callSite site) [.dynamic site] fun n l => l.IsCallSite n site := by
  intro l n l' linked hl h
  obtain ⟨handle, l₁, hhandle, h⟩ := bind_ok h
  obtain ⟨arguments, l₂, harguments, h⟩ := bind_ok h
  obtain ⟨k, l₃, hindex, h⟩ := bind_ok h
  have hfirst : Ensures (ofRequest (ConstantPool.handle site.bootstrap)) [] _ :=
    ensures_ofRequest (ConstantPool.ensures_handle site.bootstrap) rfl rfl
  obtain ⟨hgrows₁, hholds₁, hhandle⟩ := hfirst l handle l₁ linked hl hhandle
  obtain ⟨hgrows₂, hholds₂, harguments⟩ :=
    Ensures.mapM ensures_argument site.arguments l₁ arguments l₂ _ hholds₁ harguments
  rw [List.append_nil, List.flatMap_eq_nil_iff.2 fun _ _ => rfl, List.append_nil] at hholds₂
  have hentry : l₂.pool.IsBootstrap ⟨handle, arguments⟩ (site.bootstrap, site.arguments) :=
    ⟨hhandle l₂ hgrows₂, (harguments l₂ (.refl _)).flip⟩
  obtain ⟨hgrows₃, hholds₃, hpool, place, rfl, hget⟩ := hholds₂.bootstrapIndex hentry hindex
  have hlast : Ensures (ofRequest (ConstantPool.invokeDynamic (place % 65536) site.name
      site.descriptor)) [] _ :=
    ensures_ofRequest (ConstantPool.ensures_invokeDynamic (Nat.mod_lt _ (by decide)) _ _) rfl rfl
  obtain ⟨hgrows₄, hholds₄, hnumber⟩ := hlast l₃ n l' _ hholds₃ h
  rw [List.append_nil] at hholds₄
  refine ⟨((hgrows₁.trans hgrows₂).trans hgrows₃).trans hgrows₄, hholds₄, fun later hlater => ?_⟩
  obtain ⟨j, hn, hj⟩ := hnumber l' (.refl _)
  rw [← hpool] at hentry
  have hbootstraps := hgrows₄.bootstraps
  refine hlater.isCallSite ⟨place, j, _, hn, hj, ?_, hgrows₄.pool.isBootstrap hentry⟩
  obtain ⟨more, hmore⟩ := hbootstraps
  rw [← hmore, List.getElem?_append_left (List.getElem?_eq_some_iff.1 hget).1, hget]

inductive Operand where
  | constant (value : Loadable)
  | classRef (name : String)
  | field (member : MemberRef)
  | method (member : MemberRef)
  | interfaceMethod (member : MemberRef)
  | callSite (site : CallSite)

def Operand.number : Operand → Link Nat
  | constant (.string text) => ConstantPool.string text
  | constant (.int value) => ConstantPool.integer value
  | classRef name => ConstantPool.classRef name
  | field member => ConstantPool.fieldRef member
  | method member => ConstantPool.methodRef member
  | interfaceMethod member => ConstantPool.interfaceMethodRef member
  | callSite site => Link.callSite site

namespace Instruction

/-- An instruction and its linked form, where operands and their numbers are related. -/
def LinksTo (R : Operand → Nat → Prop) : Instruction → Linked → Prop
  | .plain op, k => k = .plain op
  | .push op value, k => k = .push op value
  | .constant value, k => ∃ n, R (.constant value) n ∧ k = .constant n
  | .slot op index, k => k = .slot op index
  | .classRef op name, k => ∃ n, R (.classRef name) n ∧ k = .pooled op n
  | .field op member, k => ∃ n, R (.field member) n ∧ k = .pooled op n
  | .invoke op member, k =>
    (op = .invokeinterface ∧
      ∃ n, R (.interfaceMethod member) n ∧ k = .interfaceCall n member.descriptor) ∨
    (op ≠ .invokeinterface ∧ ∃ n, R (.method member) n ∧ k = .pooled op n)
  | .dynamic site, k => ∃ n, R (.callSite site) n ∧ k = .dynamic n
  | .jump op target, k => k = .jump op target
  | .mark label, k => k = .mark label
  | .line number, k => k = .line number

theorem LinksTo.mono {R R' : Operand → Nat → Prop} {i : Instruction} {k : Linked}
    (h : i.LinksTo R k) (hR : ∀ operand n, R operand n → R' operand n) : i.LinksTo R' k := by
  cases i with
  | plain op | push op value | slot op index | jump op target | mark label | line number => exact h
  | constant value | classRef op name | field op name | dynamic site =>
    obtain ⟨n, hn, hk⟩ := h
    exact ⟨n, hR _ _ hn, hk⟩
  | invoke op member =>
    obtain ⟨hop, n, hn, hk⟩ | ⟨hop, n, hn, hk⟩ := h
    · exact .inl ⟨hop, n, hR _ _ hn, hk⟩
    · exact .inr ⟨hop, n, hR _ _ hn, hk⟩

/-- Linking asks for the number of the operand and changes nothing else. -/
theorem linksTo_of_link {i : Instruction} {l l' : Linker} {k : Linked} (h : i.link l = .ok k l') :
    i.LinksTo (fun operand n => operand.number l = .ok n l') k := by
  cases i with
  | plain op | push op value | slot op index | jump op target | mark label | line number =>
    cases h
    rfl
  | constant value =>
    cases value with
    | string text =>
      obtain ⟨n, l₁, hn, h⟩ := bind_ok h
      cases h
      exact ⟨n, hn, rfl⟩
    | int value =>
      obtain ⟨n, l₁, hn, h⟩ := bind_ok h
      cases h
      exact ⟨n, hn, rfl⟩
  | classRef op name | field op name | dynamic site =>
    obtain ⟨n, l₁, hn, h⟩ := bind_ok h
    cases h
    exact ⟨n, hn, rfl⟩
  | invoke op member =>
    simp only [link] at h
    split_ifs at h with hop
    · obtain ⟨n, l₁, hn, h⟩ := bind_ok h
      cases h
      exact .inl ⟨hop, n, hn, rfl⟩
    · obtain ⟨n, l₁, hn, h⟩ := bind_ok h
      cases h
      exact .inr ⟨hop, n, hn, rfl⟩

end Instruction

def Linker.Denotes (l : Linker) : Operand → Nat → Prop
  | .constant (.string text), n => l.pool.IsString n text
  | .constant (.int value), n => l.pool.get? n = some (.integer value)
  | .classRef name, n => l.pool.IsClass n name
  | .field member, n => ConstantPool.IsMember .fieldRef l.pool n member
  | .method member, n => ConstantPool.IsMember .methodRef l.pool n member
  | .interfaceMethod member, n => ConstantPool.IsMember .interfaceMethodRef l.pool n member
  | .callSite site, n => l.IsCallSite n site

/-- An instruction that takes one number from the pool. -/
theorem ConstantPool.Ensures.linked {r : Request Nat} {texts : List String}
    {Q : Nat → ConstantPool → Prop} (h : Ensures r texts Q) (make : Nat → Linked) (i : Instruction)
    (htexts : [i].filterMap Instruction.text? = texts)
    (hsites : [i].filterMap Instruction.bootstrap? = []) :
    Link.Ensures (Link.ofRequest r >>= fun n => pure (make n)) [i] fun k l =>
      ∃ n, Q n l.pool ∧ k = make n :=
  (Link.ensures_ofRequest h htexts hsites).map make

open ConstantPool in
/-- A linked instruction keeps what it takes from the pool. -/
theorem Instruction.ensures_link (i : Instruction) :
    Link.Ensures i.link [i] fun k l => i.LinksTo l.Denotes k := by
  cases i with
  | plain op | push op value | slot op index | jump op target | mark label | line number =>
    exact Link.ensures_pure (fun _ => rfl) rfl rfl
  | constant value =>
    cases value with
    | string text => exact (ensures_string text).linked Linked.constant _ rfl rfl
    | int value => exact (ensures_integer value).linked Linked.constant _ rfl rfl
  | classRef op name => exact (ensures_classRef name).linked (Linked.pooled op) _ rfl rfl
  | field op member => exact (ensures_fieldRef member).linked (Linked.pooled op) _ rfl rfl
  | dynamic site => exact (Link.ensures_callSite site).map Linked.dynamic
  | invoke op member =>
    rw [link]
    split_ifs with hop
    · have hlinks := (ensures_interfaceMethodRef member).linked
        (Linked.interfaceCall · member.descriptor) (.invoke op member) rfl rfl
      exact hlinks.imp fun _ _ h => .inl ⟨hop, h⟩
    · have hlinks :=
        (ensures_methodRef member).linked (Linked.pooled op) (.invoke op member) rfl rfl
      exact hlinks.imp fun _ _ h => .inr ⟨hop, h⟩

end SmalltalkJvm
