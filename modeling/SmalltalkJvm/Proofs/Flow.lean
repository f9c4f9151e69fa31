import Mathlib.Tactic.Common
import SmalltalkJvm.Jvm.Draft

/-! # Types along the code

What one instruction does to the types on the operand stack and in the local variables, said of the
instruction alone. A draft simulates the same effect while it is built: a step that is carried out
without a fault appends one instruction, and the types after the step are those that the
instruction's effect gives.
-/

namespace SmalltalkJvm

structure Flow where
  /-- Top first. -/
  stack : List VerificationType
  locals : List VerificationType
  deriving DecidableEq, Repr, Inhabited

namespace Flow

def push (f : Flow) (t : VerificationType) : Flow := { f with stack := t :: f.stack }

def pushResult (f : Flow) : Option FieldType → Flow
  | some t => f.push (.ofFieldType t)
  | none => f

/-- Takes the top `n` entries; with fewer there is no effect. -/
def drop? (f : Flow) (n : Nat) : Option Flow :=
  if n ≤ f.stack.length then some { f with stack := f.stack.drop n } else none

def assign (f : Flow) (index : Nat) (t : VerificationType) : Flow :=
  { f with
    locals :=
      (f.locals ++ List.replicate (index + 1 - f.locals.length) VerificationType.top).set index t }

/-- Every copy of a reference changes with the object it denotes. -/
def complete (f : Flow) (old new : VerificationType) : Flow where
  stack := f.stack.map fun t => if t = old then new else t
  locals := f.locals.map fun t => if t = old then new else t

def construct (f : Flow) (this : Option String) (owner : String) : VerificationType → Flow
  | .uninitializedThis => f.complete .uninitializedThis (.object (this.getD owner))
  | .uninitialized creation => f.complete (.uninitialized creation) (.object owner)
  | _ => f

def plain? (f : Flow) : Opcode → Option Flow
  | .nop | .returnVoid => some f
  | .aconstNull => some (f.push .null)
  | .iconstM1 | .iconst0 | .iconst1 | .iconst2 | .iconst3 | .iconst4 | .iconst5 =>
    some (f.push .int)
  | .pop | .areturn | .athrow => f.drop? 1
  | .pop2 =>
    match f.stack with
    | t :: _ => if t.isWide then f.drop? 1 else f.drop? 2
    | [] => none
  | .dup =>
    match f.stack with
    | t :: _ => some (f.push t)
    | [] => none
  | .dupX1 =>
    match f.stack with
    | a :: b :: rest => some { f with stack := a :: b :: a :: rest }
    | _ => none
  | .swap =>
    match f.stack with
    | a :: b :: rest => some { f with stack := b :: a :: rest }
    | _ => none
  | _ => none

/-- Takes the receiver of a call; a constructor call completes it. -/
def receive? (f : Flow) (this : Option String) (op : Opcode) (method : MemberRef) : Option Flow :=
  if op = .invokestatic then some f
  else
    match f.stack with
    | t :: rest =>
      let f := { f with stack := rest }
      some (if op = .invokespecial ∧ method.name = "<init>" then f.construct this method.owner t
        else f)
    | [] => none

end Flow

/-- The effect of an instruction at a place in the list, in a constructor of `this` if there is a
class. No effect means that the instruction finds too little on the stack or is malformed. -/
def Instruction.effect? (this : Option String) (place : Nat) (i : Instruction) (f : Flow) :
    Option Flow :=
  match i with
  | .plain op => f.plain? op
  | .push .. | .constant (.int _) => some (f.push .int)
  | .constant (.string _) => some (f.push (.object "java/lang/String"))
  | .slot .aload index => f.locals[index.toNat]?.map f.push
  | .slot .astore index =>
    match f.stack with
    | t :: rest => some ({ f with stack := rest }.assign index.toNat t)
    | [] => none
  | .classRef .new _ => some (f.push (.uninitialized place))
  | .field .getstatic member =>
    (FieldType.parse member.descriptor).toOption.map fun t => f.push (.ofFieldType t)
  | .invoke op method =>
    (MethodDescriptor.parse method.descriptor).toOption.bind fun descriptor =>
      (f.drop? descriptor.parameters.length).bind fun f =>
        (f.receive? this op method).map fun f => f.pushResult descriptor.result
  | .dynamic site =>
    (MethodDescriptor.parse site.descriptor).toOption.bind fun descriptor =>
      (f.drop? descriptor.parameters.length).map fun f => f.pushResult descriptor.result
  | .jump .. | .mark _ | .line _ => some f
  | _ => none

def Instruction.endsFlow : Instruction → Bool
  | .plain op | .jump op _ => op.endsFlow
  | _ => false

/-- Whether an instruction leaves the local variables alone: it neither sets one nor completes an
object under construction. -/
def Instruction.keepsLocals : Instruction → Bool
  | .slot .astore _ | .invoke .invokespecial _ => false
  | _ => true

theorem eq_ok_of_toOption {ε α : Type} {x : Except ε α} {a : α} (h : x.toOption = some a) :
    x = .ok a := by
  cases x <;> simp_all [Except.toOption]

theorem exists_ok_of_isOk {ε α : Type} {x : Except ε α} (h : x.isOk = true) : ∃ a, x = .ok a := by
  cases x with
  | error e => cases h
  | ok a => exact ⟨a, rfl⟩

/-- A reference takes one slot before its object is constructed and after. -/
theorem VerificationType.slots_completed {old new : VerificationType} (h : new.slots = old.slots)
    (t : VerificationType) : (if t = old then new else t).slots = t.slots := by
  by_cases ht : t = old
  · rw [if_pos ht, h, ht]
  · rw [if_neg ht]

theorem Flow.length_drop? {f f' : Flow} {n : Nat} (h : f.drop? n = some f') :
    f'.stack.length + n = f.stack.length := by
  unfold Flow.drop? at h
  split_ifs at h with hn
  cases h
  simp only [List.length_drop]
  omega

theorem Flow.length_construct (f : Flow) (this : Option String) (owner : String)
    (t : VerificationType) : (f.construct this owner t).stack.length = f.stack.length := by
  cases t <;> simp [construct, complete]

theorem Flow.length_receive? {f f' : Flow} {this : Option String} {op : Opcode}
    {method : MemberRef} (h : f.receive? this op method = some f') :
    f'.stack.length + (if op = .invokestatic then 0 else 1) = f.stack.length := by
  by_cases hs : op = .invokestatic
  · simp only [Flow.receive?, hs, ↓reduceIte, Option.some.injEq] at h ⊢
    rw [h]
    rfl
  · simp only [Flow.receive?, hs, ↓reduceIte] at h ⊢
    split at h <;> cases h
    rename_i t rest hst
    rw [hst]
    split_ifs
    · rw [Flow.length_construct, List.length_cons]
    · rfl

theorem Flow.length_pushResult (f : Flow) (result : Option FieldType) :
    (f.pushResult result).stack.length = f.stack.length + if result.isSome then 1 else 0 := by
  cases result <;> rfl

theorem Flow.locals_drop? {f f' : Flow} {n : Nat} (h : f.drop? n = some f') :
    f'.locals = f.locals := by
  unfold drop? at h
  split_ifs at h
  cases h
  rfl

theorem Flow.locals_pushResult (f : Flow) (result : Option FieldType) :
    (f.pushResult result).locals = f.locals := by
  cases result <;> rfl

theorem Flow.locals_plain? {f f' : Flow} {op : Opcode} (h : f.plain? op = some f') :
    f'.locals = f.locals := by
  cases op <;> simp only [plain?, reduceCtorEq, Option.some.injEq] at h
  case pop | areturn | athrow => exact locals_drop? h
  case pop2 =>
    split at h
    · split_ifs at h <;> exact locals_drop? h
    · cases h
  case dup | dupX1 | swap =>
    split at h
    · cases h
      rfl
    · cases h
  all_goals
    subst h
    rfl

/-- A call that constructs nothing drops its receiver. -/
theorem Flow.receive?_eq_drop? (f : Flow) (this : Option String) {op : Opcode} (method : MemberRef)
    (hop : op ≠ .invokespecial) :
    f.receive? this op method = f.drop? (if op = .invokestatic then 0 else 1) := by
  by_cases hs : op = .invokestatic
  · simp [receive?, drop?, hs]
  · cases hst : f.stack <;> simp [receive?, drop?, hs, hop, hst]

theorem Instruction.effect?_invoke {op : Opcode} {method : MemberRef} {this : Option String}
    (place : Nat) {f f' : Flow} (h : (invoke op method).effect? this place f = some f') :
    ∃ d f₁ f₂, MethodDescriptor.parse method.descriptor = .ok d ∧
      f.drop? d.parameters.length = some f₁ ∧ f₁.receive? this op method = some f₂ ∧
      f' = f₂.pushResult d.result := by
  obtain ⟨d, hd, h⟩ := Option.bind_eq_some_iff.1 h
  obtain ⟨f₁, hdrop, h⟩ := Option.bind_eq_some_iff.1 h
  obtain ⟨f₂, hreceive, hresult⟩ := Option.map_eq_some_iff.1 h
  exact ⟨d, f₁, f₂, eq_ok_of_toOption hd, hdrop, hreceive, hresult.symm⟩

theorem Instruction.effect?_locals {this : Option String} {place : Nat} {i : Instruction}
    {f f' : Flow} (hi : i.keepsLocals = true) (h : i.effect? this place f = some f') :
    f'.locals = f.locals := by
  unfold effect? at h
  split at h
  case h_1 => exact Flow.locals_plain? h
  case h_5 =>
    obtain ⟨t, -, rfl⟩ := Option.map_eq_some_iff.1 h
    rfl
  case h_6 => cases hi
  case h_8 =>
    obtain ⟨t, -, rfl⟩ := Option.map_eq_some_iff.1 h
    rfl
  case h_9 op method =>
    obtain ⟨d, f₁, f₂, -, hdrop, hreceive, rfl⟩ := effect?_invoke place h
    have hop : op ≠ .invokespecial := by
      rintro rfl
      cases hi
    rw [Flow.receive?_eq_drop? _ _ _ hop] at hreceive
    rw [Flow.locals_pushResult, Flow.locals_drop? hreceive, Flow.locals_drop? hdrop]
  case h_10 =>
    obtain ⟨descriptor, -, h⟩ := Option.bind_eq_some_iff.1 h
    obtain ⟨f₁, hdrop, rfl⟩ := Option.map_eq_some_iff.1 h
    rw [Flow.locals_pushResult, Flow.locals_drop? hdrop]
  all_goals
    cases h
    try rfl

namespace Draft

def flow (d : Draft) : Flow := ⟨d.stack.entries, d.locals⟩

/-- A draft goes on from another by one instruction, with the types that its effect gives. -/
structure Performs (d : Draft) (i : Instruction) (d' : Draft) : Prop where
  code : d'.code = d.code.push i
  effect : i.effect? d.thisClass d.code.size d.flow = some d'.flow
  reachable : d'.reachable = !i.endsFlow
  labels : d'.labels = d.labels
  handlers : d'.handlers = d.handlers
  entryLocals : d'.entryLocals = d.entryLocals
  thisClass : d'.thisClass = d.thisClass
  recordsLines : d'.recordsLines = d.recordsLines

theorem Performs.locals {d d' : Draft} {i : Instruction} (h : d.Performs i d')
    (hi : i.keepsLocals = true) : d'.locals = d.locals :=
  Instruction.effect?_locals hi h.effect

/-- A draft differs from another in its types, its peak and its fault only. -/
structure Keeps (d d' : Draft) : Prop where
  code : d'.code = d.code
  reachable : d'.reachable = d.reachable
  labels : d'.labels = d.labels
  handlers : d'.handlers = d.handlers
  line : d'.line = d.line
  entryLocals : d'.entryLocals = d.entryLocals
  thisClass : d'.thisClass = d.thisClass
  recordsLines : d'.recordsLines = d.recordsLines

theorem Keeps.refl (d : Draft) : d.Keeps d := ⟨rfl, rfl, rfl, rfl, rfl, rfl, rfl, rfl⟩

theorem Keeps.trans {a b c : Draft} (h : a.Keeps b) (k : b.Keeps c) : a.Keeps c :=
  ⟨k.code.trans h.code, k.reachable.trans h.reachable, k.labels.trans h.labels,
    k.handlers.trans h.handlers, k.line.trans h.line, k.entryLocals.trans h.entryLocals,
    k.thisClass.trans h.thisClass, k.recordsLines.trans h.recordsLines⟩

theorem Keeps.stack (d : Draft) (stack : OperandStack) : d.Keeps { d with stack } :=
  ⟨rfl, rfl, rfl, rfl, rfl, rfl, rfl, rfl⟩

theorem Keeps.push (d : Draft) (t : VerificationType) : d.Keeps (d.push t) :=
  ⟨rfl, rfl, rfl, rfl, rfl, rfl, rfl, rfl⟩

theorem Keeps.performs {d d₁ d' : Draft} {i : Instruction} (h : d.Keeps d₁)
    (heffect : i.effect? d.thisClass d.code.size d.flow = some d₁.flow)
    (hd : d' = { d₁.append i with reachable := !i.endsFlow }) : d.Performs i d' := by
  subst hd
  exact ⟨by simp [append, h.code], heffect, rfl, h.labels, h.handlers, h.entryLocals,
    h.thisClass, h.recordsLines⟩

/-- An instruction that control runs on from. -/
theorem Keeps.appends {d d₁ d' : Draft} {i : Instruction} (h : d.Keeps d₁)
    (hr : d.reachable = true) (hi : i.endsFlow = false)
    (heffect : i.effect? d.thisClass d.code.size d.flow = some d₁.flow) (hd : d' = d₁.append i) :
    d.Performs i d' := by
  refine h.performs heffect ?_
  rw [hd, hi]
  simp [append, h.reachable, hr]

theorem fault_fail (d : Draft) (fault : DraftFault) : (d.fail fault).fault ≠ none := by
  cases h : d.fault <;> simp [fail, h]

theorem pop_of_cons {d : Draft} {t : VerificationType} {rest : List VerificationType}
    (h : d.stack.entries = t :: rest) (op : Opcode) :
    d.pop op = (some t, { d with stack := .ofList rest }) := by
  have hs : d.stack = .ofList (t :: rest) := OperandStack.ext_entries h
  simp [pop, hs]

theorem pop_of_nil {d : Draft} (h : d.stack.entries = []) (op : Opcode) :
    d.pop op = (none, d.fail (.stackUnderflow op)) := by
  have hs : d.stack = .ofList [] := OperandStack.ext_entries h
  simp [pop, hs]

theorem fault_popMany {d : Draft} {op : Opcode} {n : Nat} (h : (d.popMany op n).fault = none) :
    d.fault = none := by
  induction n generalizing d with
  | zero => exact h
  | succ n ih =>
    have hp := ih h
    cases hs : d.stack.entries with
    | nil => simp [pop_of_nil hs, fault_fail] at hp
    | cons t rest => simpa [pop_of_cons hs] using hp

/-- Taking the operands of an instruction is the effect on the types. -/
theorem popMany_effect {d : Draft} {op : Opcode} {n : Nat} (hf : (d.popMany op n).fault = none) :
    d.flow.drop? n = some (d.popMany op n).flow ∧ d.Keeps (d.popMany op n) := by
  induction n generalizing d with
  | zero => exact ⟨by simp [Flow.drop?, popMany], Keeps.refl d⟩
  | succ n ih =>
    cases hs : d.stack.entries with
    | nil =>
      have hp := fault_popMany (d := (d.pop op).2) hf
      simp [pop_of_nil hs, fault_fail] at hp
    | cons t rest =>
      have hpop : d.popMany op (n + 1) = { d with stack := .ofList rest }.popMany op n := by
        rw [popMany, pop_of_cons hs]
      rw [hpop] at hf ⊢
      obtain ⟨hdrop, hkeeps⟩ := ih hf
      refine ⟨?_, (Keeps.stack d _).trans hkeeps⟩
      rw [← hdrop]
      by_cases hn : n ≤ rest.length <;> simp [Flow.drop?, flow, hs, hn]

/-- What an instruction that stands alone does to the draft is its effect on the types. -/
theorem operate_effect {d : Draft} {op : Opcode} (hs : standsAlone op = true)
    (hf : (d.operate op).fault = none) :
    d.flow.plain? op = some (d.operate op).flow ∧ d.Keeps (d.operate op) := by
  cases op <;> simp only [standsAlone, Bool.false_eq_true] at hs
  case pop | areturn | athrow =>
    cases hd : d.stack.entries with
    | nil => simp [operate, pop_of_nil hd, fault_fail] at hf
    | cons t rest =>
      refine ⟨by simp [operate, pop_of_cons hd, flow, Flow.plain?, Flow.drop?, hd], ?_⟩
      simp only [operate, pop_of_cons hd]
      exact ⟨rfl, rfl, rfl, rfl, rfl, rfl, rfl, rfl⟩
  case pop2 =>
    cases hd : d.stack.entries with
    | nil => simp [operate, pop_of_nil hd, fault_fail] at hf
    | cons t rest =>
      simp only [operate, pop_of_cons hd] at hf ⊢
      by_cases hw : t.isWide = true
      · simp only [hw, ↓reduceIte, flow, Flow.plain?, Flow.drop?, hd]
        exact ⟨rfl, rfl, rfl, rfl, rfl, rfl, rfl, rfl, rfl⟩
      · simp only [hw, Bool.false_eq_true, ↓reduceIte] at hf ⊢
        cases rest with
        | nil =>
          have hu := pop_of_nil (d := { d with stack := .ofList [] }) rfl .pop2
          simp [hu, fault_fail] at hf
        | cons u rest =>
          rw [pop_of_cons (show _ = u :: rest from rfl)]
          simp only [flow, Flow.plain?, hd, hw, Bool.false_eq_true, ↓reduceIte, Flow.drop?]
          exact ⟨by simp, rfl, rfl, rfl, rfl, rfl, rfl, rfl, rfl⟩
  case dup =>
    cases hd : d.stack.entries with
    | nil => simp [operate, pop_of_nil hd, fault_fail] at hf
    | cons t rest =>
      simp only [operate, pop_of_cons hd, flow, Flow.plain?, hd]
      exact ⟨rfl, rfl, rfl, rfl, rfl, rfl, rfl, rfl, rfl⟩
  case dupX1 | swap =>
    rcases hd : d.stack.entries with _ | ⟨t, _ | ⟨u, rest⟩⟩
    · simp [operate, pop_of_nil hd, pop_of_nil (d := d.fail _) hd, fault_fail] at hf
    · have hu := pop_of_nil (d := { d with stack := .ofList [] }) rfl
      simp [operate, pop_of_cons hd, hu, fault_fail] at hf
    · have hu := pop_of_cons (d := { d with stack := .ofList (u :: rest) })
        (show _ = u :: rest from rfl)
      simp only [operate, pop_of_cons hd, hu, flow, Flow.plain?, hd]
      exact ⟨rfl, rfl, rfl, rfl, rfl, rfl, rfl, rfl, rfl⟩
  all_goals exact ⟨rfl, rfl, rfl, rfl, rfl, rfl, rfl, rfl, rfl⟩

theorem flow_construct (d : Draft) (t : VerificationType) (owner : String) :
    (d.construct (some t) owner).flow = d.flow.construct d.thisClass owner t ∧
      d.Keeps (d.construct (some t) owner) ∧ (d.construct (some t) owner).fault = d.fault := by
  cases t <;> exact ⟨rfl, ⟨rfl, rfl, rfl, rfl, rfl, rfl, rfl, rfl⟩, rfl⟩

/-- Taking the receiver of a call is the effect on the types. -/
theorem popReceiver_effect {d : Draft} {op : Opcode} {method : MemberRef}
    (hf : (d.popReceiver op method).fault = none) :
    d.flow.receive? d.thisClass op method = some (d.popReceiver op method).flow ∧
      d.Keeps (d.popReceiver op method) := by
  by_cases hop : op = .invokestatic
  · simp only [popReceiver, Flow.receive?, hop, ↓reduceIte, true_and]
    exact Keeps.refl d
  · simp only [popReceiver, Flow.receive?, hop, ↓reduceIte] at hf ⊢
    cases hs : d.stack.entries with
    | nil =>
      rw [pop_of_nil hs] at hf
      split_ifs at hf <;> simp [construct, fault_fail] at hf
    | cons t rest =>
      rw [pop_of_cons hs]
      simp only [flow, hs, Option.some.injEq]
      split_ifs with hinit
      · obtain ⟨hflow, hkeeps, -⟩ := flow_construct { d with stack := .ofList rest } t method.owner
        exact ⟨hflow.symm, (Keeps.stack d _).trans hkeeps⟩
      · exact ⟨rfl, Keeps.stack d _⟩

theorem pushResult_effect (d : Draft) (result : Option FieldType) :
    (d.pushResult result).flow = d.flow.pushResult result ∧ d.Keeps (d.pushResult result) ∧
      (d.pushResult result).fault = d.fault := by
  cases result <;> exact ⟨rfl, ⟨rfl, rfl, rfl, rfl, rfl, rfl, rfl, rfl⟩, rfl⟩

theorem fault_popReceiver {d : Draft} {op : Opcode} {method : MemberRef}
    (hf : (d.popReceiver op method).fault = none) : d.fault = none := by
  by_cases hop : op = .invokestatic
  · simpa [popReceiver, hop] using hf
  · simp only [popReceiver, hop, ↓reduceIte] at hf
    cases hs : d.stack.entries with
    | nil =>
      rw [pop_of_nil hs] at hf
      split_ifs at hf <;> simp [construct, fault_fail] at hf
    | cons t rest =>
      rw [pop_of_cons hs] at hf
      split_ifs at hf with hinit
      · rwa [(flow_construct _ t method.owner).2.2] at hf
      · exact hf

theorem fault_pop {d : Draft} (op : Opcode) (h : (d.pop op).2.fault = none) : d.fault = none := by
  cases hs : d.stack.entries with
  | nil => simp [pop_of_nil hs, fault_fail] at h
  | cons t rest => simpa [pop_of_cons hs] using h

theorem fault_operate {d : Draft} {op : Opcode} (h : (d.operate op).fault = none) :
    d.fault = none := by
  cases op
  case pop | areturn | athrow => exact fault_pop _ h
  case pop2 =>
    simp only [operate] at h
    split at h <;> rename_i hpop <;> refine fault_pop .pop2 ?_ <;> rw [hpop]
    · split_ifs at h
      · exact h
      · exact fault_pop _ h
    · exact h
  case dup =>
    simp only [operate] at h
    split at h <;> rename_i hpop <;> exact fault_pop .dup (by rw [hpop]; exact h)
  case dupX1 =>
    simp only [operate] at h
    split at h
    · rename_i hpop
      exact fault_pop _ (fault_pop .dupX1 (by rw [hpop]; exact h))
    · rename_i hpop _
      exact fault_pop _ (fault_pop .dupX1 (by rw [hpop]; exact h))
  case swap =>
    simp only [operate] at h
    split at h
    · rename_i hpop
      exact fault_pop _ (fault_pop .swap (by rw [hpop]; exact h))
    · rename_i hpop _
      exact fault_pop _ (fault_pop .swap (by rw [hpop]; exact h))
  all_goals exact h

theorem fault_plain {d : Draft} {op : Opcode} (h : (d.plain op).fault = none) : d.fault = none := by
  unfold plain at h
  split_ifs at h
  · exact fault_operate h
  · exact absurd h (fault_fail d _)
  · exact h

theorem fault_meet {d : Draft} {label : Label} (h : (d.meet label).fault = none) :
    d.fault = none := by
  unfold meet at h
  split_ifs at h
  · exact h
  · split at h <;> exact h

/-- A fault stays. -/
theorem fault_step {d : Draft} {s : Step} (h : (d.step s).fault = none) : d.fault = none := by
  cases s <;> simp only [step] at h
  case line number =>
    unfold openLine at h
    split_ifs at h <;> exact h
  case plain op => exact fault_plain h
  case discard =>
    unfold discard at h
    split at h <;> exact fault_plain h
  case int value =>
    unfold pushInt at h
    split_ifs at h <;> exact h
  case string text =>
    unfold pushString at h
    split_ifs at h <;> exact h
  case load slot =>
    unfold load at h
    split_ifs at h
    · split at h
      · exact h
      · exact absurd h (fault_fail d _)
    · exact h
  case store slot =>
    unfold store at h
    split_ifs at h
    · split at h <;> rename_i hpop <;> exact fault_pop .astore (by rw [hpop]; exact h)
    · exact h
  case create className =>
    unfold create at h
    split_ifs at h <;> exact h
  case getStatic field =>
    unfold getStatic at h
    split_ifs at h
    · split at h
      · exact h
      · exact absurd h (fault_fail d _)
    · exact h
  case invoke op method =>
    unfold invoke at h
    split_ifs at h
    · split at h
      · rename_i descriptor _
        have hcalled : ((d.popMany op descriptor.parameters.length).popReceiver op method).fault =
            none := by
          rw [← (pushResult_effect _ descriptor.result).2.2]
          exact h
        exact fault_popMany (fault_popReceiver hcalled)
      · exact absurd h (fault_fail d _)
    · exact h
  case invokeDynamic site =>
    unfold invokeDynamic at h
    split_ifs at h
    · split at h
      · rename_i descriptor _
        have hoperands : (d.popMany .invokedynamic descriptor.parameters.length).fault = none := by
          rw [← (pushResult_effect _ descriptor.result).2.2]
          exact h
        exact fault_popMany hoperands
      · exact absurd h (fault_fail d _)
    · exact h
  case mark label => exact fault_meet h
  case markHandler label exception =>
    have hd := fault_meet (d := { d.modifyLabel label fun r =>
      { r with stack := some [.object exception], targeted := true } with reachable := false }) h
    exact hd
  case goto target =>
    unfold goto at h
    split_ifs at h <;> exact h
  all_goals exact h

theorem fault_run {d : Draft} {steps : List Step} (h : (d.run steps).fault = none) :
    d.fault = none := by
  induction steps generalizing d with
  | nil => exact h
  | cons s steps ih => exact fault_step (ih h)

theorem endsFlow_intInstruction (value : Int32) : (intInstruction value).endsFlow = false := by
  unfold intInstruction Opcode.iconst?
  split
  · rename_i op h
    split_ifs at h <;> cases h <;> rfl
  · split_ifs <;> rfl

theorem effect?_intInstruction (value : Int32) (this : Option String) (place : Nat) (f : Flow) :
    (intInstruction value).effect? this place f = some (f.push .int) := by
  unfold intInstruction Opcode.iconst?
  split
  · rename_i op h
    split_ifs at h <;> cases h <;> rfl
  · split_ifs <;> rfl

section Performed

variable {d : Draft} (hr : d.reachable = true)
include hr

theorem plain_performs {op : Opcode} (hf : (d.plain op).fault = none) :
    d.Performs (.plain op) (d.plain op) := by
  by_cases hs : standsAlone op = true
  · have hplain : d.plain op =
        { (d.operate op).append (.plain op) with reachable := !op.endsFlow } := by
      simp [plain, hr, hs]
    obtain ⟨heffect, hkeeps⟩ := operate_effect hs (by rw [hplain] at hf; exact hf)
    exact hkeeps.performs heffect hplain
  · simp [plain, hr, hs, fault_fail] at hf

theorem pushInt_performs (value : Int32) : d.Performs (intInstruction value) (d.pushInt value) := by
  refine (Keeps.push d .int).appends hr (endsFlow_intInstruction value)
    (effect?_intInstruction ..) ?_
  simp [pushInt, hr, push, setStack, append]

theorem pushString_performs (text : String) :
    d.Performs (.constant (.string text)) (d.pushString text) := by
  refine (Keeps.push d (.object "java/lang/String")).appends hr rfl rfl ?_
  simp [pushString, hr, push, setStack, append]

theorem load_performs {slot : UInt16} (hf : (d.load slot).fault = none) :
    d.Performs (.slot .aload slot) (d.load slot) := by
  cases hl : d.locals[slot.toNat]? with
  | none => simp [load, hr, hl, fault_fail] at hf
  | some t =>
    refine (Keeps.push d t).appends hr rfl (by simp [Instruction.effect?, flow, hl]; rfl) ?_
    simp [load, hr, hl, push, setStack, append]

theorem store_performs {slot : UInt16} (hf : (d.store slot).fault = none) :
    d.Performs (.slot .astore slot) (d.store slot) := by
  cases hs : d.stack.entries with
  | nil => simp [store, hr, pop_of_nil hs, fault_fail] at hf
  | cons t rest =>
    have hkeeps : d.Keeps ({ d with stack := .ofList rest }.setLocal slot.toNat t) :=
      ⟨rfl, rfl, rfl, rfl, rfl, rfl, rfl, rfl⟩
    refine hkeeps.appends hr rfl ?_ ?_
    · simp [Instruction.effect?, flow, hs, Flow.assign, setLocal]
    · simp [store, hr, pop_of_cons hs]

theorem create_performs (className : String) :
    d.Performs (.classRef .new className) (d.create className) := by
  refine (Keeps.push d (.uninitialized d.code.size)).appends hr rfl rfl ?_
  simp [create, hr, push, setStack, append]

theorem getStatic_performs {field : MemberRef} (hf : (d.getStatic field).fault = none) :
    d.Performs (.field .getstatic field) (d.getStatic field) := by
  cases hp : FieldType.parse field.descriptor with
  | error e => simp [getStatic, hr, hp, fault_fail, append] at hf
  | ok t =>
    refine (Keeps.push d (.ofFieldType t)).appends hr rfl
      (by simp [Instruction.effect?, hp, Except.toOption]; rfl) ?_
    simp [getStatic, hr, hp, push, setStack, append]

theorem invoke_performs {op : Opcode} {method : MemberRef}
    (hf : (d.invoke op method).fault = none) :
    d.Performs (.invoke op method) (d.invoke op method) := by
  cases hp : MethodDescriptor.parse method.descriptor with
  | error e => simp [invoke, hr, hp, fault_fail] at hf
  | ok descriptor =>
    obtain ⟨operands, hoperands⟩ : ∃ x, x = d.popMany op descriptor.parameters.length := ⟨_, rfl⟩
    obtain ⟨called, hcalled⟩ : ∃ x, x = operands.popReceiver op method := ⟨_, rfl⟩
    have hinvoke : d.invoke op method =
        (called.pushResult descriptor.result).append (.invoke op method) := by
      simp [invoke, hr, hp, hcalled, hoperands]
    obtain ⟨hresult, hpushed, hfault⟩ := pushResult_effect called descriptor.result
    have hfine : called.fault = none := by
      rw [← hfault]
      rw [hinvoke] at hf
      exact hf
    subst hcalled
    have hfine' := fault_popReceiver hfine
    obtain ⟨hreceive, hreceived⟩ := popReceiver_effect hfine
    subst hoperands
    obtain ⟨hdrop, hdropped⟩ := popMany_effect hfine'
    refine ((hdropped.trans hreceived).trans hpushed).appends hr rfl ?_ hinvoke
    rw [hdropped.thisClass] at hreceive
    simp only [Instruction.effect?, hp, Except.toOption, Option.bind_some, hdrop, hreceive,
      Option.map_some, hresult]

theorem invokeDynamic_performs {site : CallSite} (hf : (d.invokeDynamic site).fault = none) :
    d.Performs (.dynamic site) (d.invokeDynamic site) := by
  cases hp : MethodDescriptor.parse site.descriptor with
  | error e => simp [invokeDynamic, hr, hp, fault_fail] at hf
  | ok descriptor =>
    obtain ⟨operands, hoperands⟩ :
        ∃ x, x = d.popMany .invokedynamic descriptor.parameters.length := ⟨_, rfl⟩
    have hinvoke : d.invokeDynamic site =
        (operands.pushResult descriptor.result).append (.dynamic site) := by
      simp [invokeDynamic, hr, hp, hoperands]
    obtain ⟨hresult, hpushed, hfault⟩ := pushResult_effect operands descriptor.result
    have hfine : operands.fault = none := by
      rw [← hfault]
      rw [hinvoke] at hf
      exact hf
    subst hoperands
    obtain ⟨hdrop, hdropped⟩ := popMany_effect hfine
    refine (hdropped.trans hpushed).appends hr rfl ?_ hinvoke
    simp only [Instruction.effect?, hp, Except.toOption, Option.bind_some, hdrop,
      Option.map_some, hresult]

end Performed

end Draft
end SmalltalkJvm
