import SmalltalkJvm.Proofs.Interning

/-! # What linking leaves in any pool

Linking and writing add to the pool and take nothing away, whatever the pool was before and whatever
was linked with it. So what is known of a number when it is given holds in the pool that the class
is written with. The laws follow the ways in which actions are put together.
-/

namespace SmalltalkJvm

namespace Link

/-- An action that succeeds only adds to the pool, and its result is as described with every pool
that comes later. -/
def Leaves {α : Type} (x : Link α) (Q : α → Linker → Prop) : Prop :=
  ∀ l a l', x l = .ok a l' →
    l.pool.Grows l'.pool ∧ ∀ later : Linker, l'.pool.Grows later.pool → Q a later

section

variable {α β γ : Type} {Q : α → Linker → Prop}

theorem leaves_pure {a : α} (h : ∀ l, Q a l) : Leaves (pure a) Q := by
  rintro l a l' ⟨⟩
  exact ⟨.refl _, fun later _ => h later⟩

theorem leaves_throw (fault : AssemblyFault) : Leaves (throw fault) Q := by
  rintro l a l' ⟨⟩

theorem leaves_ofExcept {x : Except AssemblyFault α} :
    Leaves (ofExcept x) fun a _ => x = .ok a := by
  cases x with
  | error fault => exact leaves_throw fault
  | ok a => exact leaves_pure fun _ => rfl

theorem leaves_ofRequest {needs : ConstantPool → Prop} {r : ConstantPool.Request α}
    {texts : List String} {Q : α → ConstantPool → Prop}
    (h : ConstantPool.Settles needs r texts Q) : Leaves (ofRequest r) fun a l => Q a l.pool := by
  rintro ⟨pool, bootstraps⟩ a l' hok
  simp only [ofRequest] at hok
  split at hok
  · rename_i a pool' hr
    cases hok
    exact ⟨ConstantPool.after_of_ok hr ▸ h.grows pool, fun later => h.granted hr later.pool⟩
  · cases hok

theorem Leaves.imp {x : Link α} {Q' : α → Linker → Prop} (h : Leaves x Q)
    (hQ : ∀ a l, Q a l → Q' a l) : Leaves x Q' := by
  intro l a l' hx
  obtain ⟨hgrows, hq⟩ := h l a l' hx
  exact ⟨hgrows, fun later hlater => hQ a later (hq later hlater)⟩

theorem Leaves.bind {x : Link α} {f : α → Link β} {R : α → β → Linker → Prop}
    (hx : Leaves x Q) (hf : ∀ a, Leaves (f a) (R a)) :
    Leaves (x >>= f) fun b l => ∃ a, Q a l ∧ R a b l := by
  intro l b l' h
  obtain ⟨a, middle, hfirst, hsecond⟩ := bind_ok h
  obtain ⟨hgrows, hq⟩ := hx l a middle hfirst
  obtain ⟨hgrows', hr⟩ := hf a middle b l' hsecond
  exact ⟨hgrows.trans hgrows', fun later hlater =>
    ⟨a, hq later (hgrows'.trans hlater), hr later hlater⟩⟩

theorem Leaves.map {x : Link α} (h : Leaves x Q) (f : α → β) :
    Leaves (x >>= fun a => pure (f a)) fun b l => ∃ a, Q a l ∧ b = f a :=
  h.bind fun _ => leaves_pure fun _ => rfl

theorem Leaves.mapM {f : γ → Link α} {Q : γ → α → Linker → Prop} (h : ∀ x, Leaves (f x) (Q x))
    (xs : List γ) : Leaves (xs.mapM f) fun ys l => List.Forall₂ (fun x y => Q x y l) xs ys := by
  induction xs with
  | nil => exact leaves_pure fun _ => .nil
  | cons x xs ih =>
    rw [List.mapM_cons]
    apply ((h x).bind fun y => ih.map (y :: ·)).imp
    rintro zs l ⟨y, hy, ys, hys, rfl⟩
    exact .cons hy hys

/-- A check before an action. -/
theorem Leaves.unless {c : Prop} [Decidable c] {fault : AssemblyFault} {f : Unit → Link α}
    (h : ¬c → Leaves (f ()) Q) :
    Leaves (if c then throw fault >>= f else f ()) fun a l => ¬c ∧ Q a l := by
  by_cases hc : c
  · rw [if_pos hc]
    rintro l a l' ⟨⟩
  · rw [if_neg hc]
    exact (h hc).imp fun a l hq => ⟨hc, hq⟩

end

theorem leaves_utf8 (text : String) :
    Leaves (ofRequest (ConstantPool.utf8 text)) fun i l => l.pool.IsText i text :=
  leaves_ofRequest (ConstantPool.settles_utf8 text)

theorem leaves_classRef (name : String) :
    Leaves (ofRequest (ConstantPool.classRef name)) fun i l => l.pool.IsClass i name :=
  leaves_ofRequest (ConstantPool.settles_classRef name)

theorem leaves_argument (a : BootstrapArgument) :
    Leaves (ofRequest (argument a)) fun _ _ => True := by
  cases a with
  | methodType descriptor =>
    exact (leaves_ofRequest (ConstantPool.settles_methodType descriptor)).imp fun _ _ _ => trivial
  | handle handle =>
    exact (leaves_ofRequest (ConstantPool.settles_handle handle)).imp fun _ _ _ => trivial

theorem leaves_bootstrapIndex (entry : Bootstrap) :
    Leaves (bootstrapIndex entry) fun _ _ => True := by
  rintro ⟨pool, bootstraps⟩ i l' h
  simp only [bootstrapIndex] at h
  split at h <;> cases h
  · exact ⟨.refl pool, fun _ _ => trivial⟩
  · exact ⟨.refl pool, fun _ _ => trivial⟩

theorem leaves_callSite (site : CallSite) : Leaves (callSite site) fun _ _ => True := by
  apply ((leaves_ofRequest (ConstantPool.settles_handle site.bootstrap)).bind fun handle =>
    (Leaves.mapM leaves_argument site.arguments).bind fun arguments =>
      (leaves_bootstrapIndex ⟨handle, arguments⟩).bind fun bootstrap =>
        leaves_ofRequest (ConstantPool.settles_invokeDynamic bootstrap site.name
          site.descriptor)).imp
  intro _ _ _
  trivial

end Link

def ConstantPool.IsLoadable (p : ConstantPool) (n : Nat) : Loadable → Prop
  | .string text => p.IsString n text
  | .int value => p.get? n = some (.integer value)

/-- What a pool says of the number of an operand, if code loads it as a constant. -/
def ConstantPool.Numbers (p : ConstantPool) (operand : Operand) (n : Nat) : Prop :=
  ∀ value, operand = .constant value → p.IsLoadable n value

open Link ConstantPool in
theorem Operand.leaves_number (operand : Operand) :
    Leaves operand.number fun n l => l.pool.Numbers operand n := by
  have hother {needs : ConstantPool → Prop} {r : Request Nat} {texts : List String}
      {Q : Nat → ConstantPool → Prop} (h : Settles needs r texts Q)
      (hne : ∀ value, operand ≠ .constant value) :
      Leaves (ofRequest r) fun n l => l.pool.Numbers operand n :=
    (leaves_ofRequest h).imp fun _ _ _ value hvalue => absurd hvalue (hne value)
  cases operand with
  | constant value =>
    cases value with
    | string text =>
      apply (leaves_ofRequest (settles_string text)).imp
      rintro n l h value ⟨⟩
      exact h
    | int number =>
      apply (leaves_ofRequest (settles_integer number)).imp
      rintro n l h value ⟨⟩
      exact h
  | classRef name => exact hother (settles_classRef name) (by simp)
  | field member => exact hother (settles_fieldRef member) (by simp)
  | method member => exact hother (settles_methodRef member) (by simp)
  | interfaceMethod member => exact hother (settles_interfaceMethodRef member) (by simp)
  | callSite site => exact (leaves_callSite site).imp fun _ _ _ value hvalue => by cases hvalue

/-- An instruction is linked with the number of its operand. -/
theorem Instruction.leaves_link (i : Instruction) :
    Link.Leaves i.link fun k l => i.LinksTo l.pool.Numbers k := by
  cases i with
  | plain op | push op value | slot op index | jump op target | mark label | line number =>
    exact Link.leaves_pure fun _ => rfl
  | constant value =>
    cases value with
    | string text => exact (Operand.constant (.string text)).leaves_number.map Linked.constant
    | int value => exact (Operand.constant (.int value)).leaves_number.map Linked.constant
  | classRef op name => exact (Operand.classRef name).leaves_number.map (Linked.pooled op)
  | field op member => exact (Operand.field member).leaves_number.map (Linked.pooled op)
  | dynamic site => exact (Operand.callSite site).leaves_number.map Linked.dynamic
  | invoke op member =>
    rw [link]
    by_cases hop : op = .invokeinterface
    · rw [if_pos hop]
      apply ((Operand.interfaceMethod member).leaves_number.map
        (Linked.interfaceCall · member.descriptor)).imp
      intro k l h
      exact .inl ⟨hop, h⟩
    · rw [if_neg hop]
      apply ((Operand.method member).leaves_number.map (Linked.pooled op)).imp
      intro k l h
      exact .inr ⟨hop, h⟩

end SmalltalkJvm
