import SmalltalkJvm.Jvm.VerificationType

/-! # Simulated operand stacks

The types on the operand stack of a method under construction. Depth and slot count are carried
along with the entries, with the proof that they belong to them, so two stacks are equal as soon as
their entries are.
-/

namespace SmalltalkJvm

structure OperandStack where
  /-- Top first. -/
  entries : List VerificationType
  depth : Nat
  slots : Nat
  depth_eq : depth = entries.length
  slots_eq : slots = totalSlots entries

namespace OperandStack

def ofList (entries : List VerificationType) : OperandStack :=
  ⟨entries, entries.length, totalSlots entries, rfl, rfl⟩

def empty : OperandStack := ⟨[], 0, 0, rfl, rfl⟩

instance : Inhabited OperandStack := ⟨empty⟩

def push (s : OperandStack) (t : VerificationType) : OperandStack where
  entries := t :: s.entries
  depth := s.depth + 1
  slots := s.slots + t.slots
  depth_eq := by simp [s.depth_eq]
  slots_eq := by simp [s.slots_eq, Nat.add_comm]

def pop? (s : OperandStack) : Option (VerificationType × OperandStack) :=
  match shape : s.entries with
  | [] => none
  | t :: rest =>
    some (t,
      { entries := rest
        depth := s.depth - 1
        slots := s.slots - t.slots
        depth_eq := by simp [s.depth_eq, shape]
        slots_eq := by simp [s.slots_eq, shape] })

def top? (s : OperandStack) : Option VerificationType := s.entries.head?

/-- Every entry equal to `old` becomes `new`. -/
def replace (s : OperandStack) (old new : VerificationType) : OperandStack :=
  ofList (s.entries.map fun t => if t = old then new else t)

@[ext] theorem ext_entries {a b : OperandStack} (h : a.entries = b.entries) : a = b := by
  cases a with
  | mk entries depth slots depth_eq slots_eq =>
    cases b with
    | mk entries' depth' slots' depth_eq' slots_eq' =>
      simp only at h
      subst h depth_eq slots_eq depth_eq' slots_eq'
      rfl

@[simp] theorem entries_empty : empty.entries = [] := rfl

@[simp] theorem entries_ofList (l : List VerificationType) : (ofList l).entries = l := rfl

@[simp] theorem entries_push (s : OperandStack) (t : VerificationType) :
    (s.push t).entries = t :: s.entries := rfl

@[simp] theorem pop?_ofList_nil : (ofList []).pop? = none := rfl

@[simp] theorem pop?_ofList_cons (t : VerificationType) (l : List VerificationType) :
    (ofList (t :: l)).pop? = some (t, ofList l) := by
  simp only [pop?, ofList, Option.some.injEq, Prod.mk.injEq, true_and]
  apply ext_entries
  rfl

end OperandStack
end SmalltalkJvm
