import Mathlib.Data.List.Permutation
import SmalltalkJvm.Proofs.BlockNaming

/-! # Units evaluated from outlines

Names are looked up in hash tables, which stop evaluation. What a script becomes is therefore
evaluated from the code that it stands for, given the names of its blocks. Without symbols these are
the first numbers, so a script compiles if for every order of them its classes are within the limits
of the format.
-/

namespace SmalltalkJvm

open Compile BlockName

section

variable (env : Env)

/-- The method of the block with number `i`, and its marker class if it answers. -/
def BlockLiteral.outline? (names : Nat → String) (i : Nat) (literal : BlockLiteral) :
    Option (Method × List ClassFile) := do
  let code := literal.body.plan env literal.parameters (Draft.nilOperations env) names
    (i - (literal.body.blocks env).length)
  let body ← (code.run env (env.method env.blockLocals)).finish.toOption
  let files ← if literal.escapes then
      (markerClass env (env.markerName (names i)) literal.span).toOption.map ([·])
    else some []
  return (⟨Access.isPrivate ||| Access.isStatic ||| Access.isSynthetic, names i,
    env.library.blockDescriptor, body⟩, files)

def outlineBlocks? (names : Nat → String) :
    Nat → List BlockLiteral → Option (List Method × List ClassFile)
  | _, [] => some ([], [])
  | i, literal :: rest => do
    let (method, files) ← literal.outline? env names i
    let (methods, others) ← outlineBlocks? names (i + 1) rest
    return (method :: methods, files ++ others)

/-- What a script becomes if its blocks have the names given. -/
def Script.outline? (script : Script) (names : List String) : Option Generated := do
  let given (i : Nat) := (names[i]?).getD ""
  let code := script.body.plan env [] [.load 1] given 0
  let body ← (code.run env (env.method env.scriptLocals)).finish.toOption
  let (methods, files) ← outlineBlocks? env given 0 (script.body.blocks env)
  return ⟨⟨Access.isProtected, "sendMessages", env.library.scriptDescriptor, body⟩, methods, files⟩

variable {env}

theorem BlockLiteral.outline?_eq {names : Nat → String} {i : Nat} {literal : BlockLiteral}
    {method : Method} {files : List ClassFile} (hcompiled : literal.Compiled env names i method)
    (hmarked : literal.Marked env method files) :
    literal.outline? env names i = some (method, files) := by
  obtain ⟨hname, haccess, hdescriptor, hbody⟩ := hcompiled
  obtain ⟨access, name, descriptor, body⟩ := method
  simp only at hname haccess hdescriptor hbody
  subst hname haccess hdescriptor
  unfold Marked at hmarked
  split_ifs at hmarked with hescapes
  · obtain ⟨file, hfile, rfl⟩ := hmarked
    simp [outline?, hbody, hescapes, hfile, Except.toOption]
  · subst hmarked
    simp [outline?, hbody, hescapes, Except.toOption]

theorem Blocks.outline?_eq {names : Nat → String} {i : Nat} {literals : List BlockLiteral}
    {methods : List Method} {files : List ClassFile}
    (h : Blocks env names i literals methods files) :
    outlineBlocks? env names i literals = some (methods, files) := by
  induction h with
  | nil i => rfl
  | cons hcompiled hmarked _ ih =>
    simp [outlineBlocks?, BlockLiteral.outline?_eq hcompiled hmarked, ih]

theorem outline?_of_generate {script : Script} {g : Generated} (h : generate env script = .ok g) :
    script.outline? env (g.blocks.map Method.name) = some g := by
  obtain ⟨haccess, hname, hdescriptor, hbody, hblocks, -, -, -⟩ := generate_outlined env h
  have hnames : (fun i => ((g.blocks.map Method.name)[i]?).getD "") = g.names := by
    funext i
    rw [List.getElem?_map, Generated.names]
  unfold Script.outline?
  simp only [hnames, hbody, hblocks.outline?_eq, Except.toOption, Option.bind_eq_bind,
    Option.bind_some, ← haccess, ← hname, ← hdescriptor]
  rfl

variable (env) in
/-- No name that is taken from the start is a number. -/
theorem numbered_notMem_initial (i : Nat) : numbered i ∉ (State.initial env).taken := by
  intro h
  have hmem : numbered i ∈ reserved := List.contains_iff_mem.1 (Std.HashSet.mem_ofList.1 h)
  have hothers : ∀ name ∈ reserved, name.toList.head? ≠ some 'B' := by decide
  exact hothers _ hmem (by rw [toList_numbered, List.head?_cons])

/-- Without symbols, free numbers are given one after the other. -/
theorem BlockName.Supply.Serves.names_eq {p p' : Supply} {symbols : List (Option String)}
    {tried : List Candidate} {names : List String} (h : p.Serves symbols tried names p')
    (hnone : ∀ symbol ∈ symbols, symbol = none)
    (hfree : ∀ i, p.next ≤ i → numbered i ∉ p.taken) :
    names = (List.range' p.next symbols.length).map numbered := by
  induction h with
  | nil p => rfl
  | @cons p p' symbol symbols passed tried found names first _ ih =>
    obtain ⟨rfl, hothers⟩ := List.forall_mem_cons.1 hnone
    have hfound : found = ⟨.number p.next, p.next + 1⟩ := by
      cases first with
      | free _ => rfl
      | again htaken _ => exact absurd htaken (hfree p.next (Nat.le_refl _))
    subst hfound
    have hlater (i : Nat) (hi : p.next + 1 ≤ i) :
        numbered i ∉ p.taken.insert (numbered p.next) := by
      rw [Std.HashSet.mem_insert, beq_iff_eq, not_or]
      refine ⟨fun heq => ?_, hfree i (by omega)⟩
      have := numbered_injective heq
      omega
    rw [ih hothers hlater, List.length_cons, List.range'_succ, List.map_cons]
    rfl

/-- Blocks whose messages have no symbols are named by the first numbers, in some order. -/
theorem names_perm_numbered {script : Script} {g : Generated} (h : generate env script = .ok g)
    (hnone : ∀ symbol ∈ script.body.blockSymbols none, symbol = none) :
    ((List.range (script.body.blockSymbols none).length).map numbered).Perm
      (g.blocks.map Method.name) := by
  unfold generate at h
  cases hscript : Compile.script env script (State.initial env) with
  | error e s =>
    rw [hscript] at h
    cases h
  | ok method s =>
    rw [hscript] at h
    cases h
    obtain ⟨hsupply, -⟩ := (asks_script env script).granted hscript
    obtain ⟨tried, names, hserves, -⟩ := serves_initial hsupply
    have hnames : names = (List.range' 0 (script.body.blockSymbols none).length).map numbered :=
      hserves.names_eq hnone fun i _ => numbered_notMem_initial env i
    rw [List.range_eq_range', ← hnames]
    exact names_perm hscript hserves

/-- The orders in which the first `n` numbers can be given to blocks. -/
def namings (n : Nat) : List (List String) := ((List.range n).map numbered).permutations'

/-- What can be evaluated for every naming of the blocks holds of what is generated. -/
theorem holds_of_outlines {script : Script} {g : Generated} (h : generate env script = .ok g)
    (hnone : ∀ symbol ∈ script.body.blockSymbols none, symbol = none) {p : Generated → Bool}
    (hp : ((namings (script.body.blockSymbols none).length).all fun names =>
      (script.outline? env names).all p) = true) : p g = true := by
  have hmem := List.mem_permutations'.2 (names_perm_numbered h hnone).symm
  have hall := List.all_eq_true.1 hp _ hmem
  rwa [outline?_of_generate h, Option.all_some] at hall

variable (env) in
/-- Whether the classes of a unit are within the limits of the format. -/
def Compile.Generated.fits (g : Generated) : Bool :=
  match primaryClass env g with
  | .error _ => false
  | .ok file => (file :: g.markers).all fun c =>
    (c.texts.all fun text => 6 * text.utf8ByteSize ≤ 65535) && c.weight < 65535 &&
      c.methods.all fun m => m.body.Fits

theorem compileUnit_of_outlines {settings : Settings} {unit : UnitName} {script : Script}
    (hok : (generate ⟨settings, unit⟩ script).isOk = true)
    (hnone : ∀ symbol ∈ script.body.blockSymbols none, symbol = none)
    (hfits : ((namings (script.body.blockSymbols none).length).all fun names =>
      (script.outline? ⟨settings, unit⟩ names).all (Generated.fits ⟨settings, unit⟩)) = true) :
    ∃ u, compileUnit settings unit script = .ok u := by
  obtain ⟨g, hg⟩ := exists_ok_of_isOk hok
  have hthis := holds_of_outlines hg hnone hfits
  unfold Generated.fits at hthis
  split at hthis
  · cases hthis
  · rename_i file hfile
    have hall : ∀ c ∈ file :: g.markers, c.Fits := by
      intro c hc
      have := List.all_eq_true.1 hthis c hc
      simp only [Bool.and_eq_true, List.all_eq_true, decide_eq_true_eq] at this
      exact ⟨short_of_bytes this.1.1, this.1.2, this.2⟩
    exact compileUnit_of_fits hg hfile (hall file (by simp))
      fun c hc => hall c (List.mem_cons_of_mem _ hc)

end

namespace Sample

theorem compiles : ∃ u, compileUnit {} unit script = .ok u :=
  compileUnit_of_outlines (by decide +kernel) (by decide) (by decide +kernel)

/-- Both blocks are created in the script's method, which brings their answers back. -/
theorem generated {g : Generated} (h : generate env script = .ok g) :
    g.blocks.length = 2 ∧ g.markers.length = 2 ∧ g.sendMessages.body.handlers.length = 2 := by
  have hcounts := holds_of_outlines (p := fun g => g.blocks.length = 2 ∧ g.markers.length = 2 ∧
    g.sendMessages.body.handlers.length = 2) h (by decide) (by decide +kernel)
  exact of_decide_eq_true hcounts

end Sample

end SmalltalkJvm
