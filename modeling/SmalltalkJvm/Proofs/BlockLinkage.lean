import SmalltalkJvm.Proofs.Exactness

/-! # Blocks are linked to their methods

Blocks are named before they are compiled, their methods are finished while those around them wait,
and call sites with the same bootstrap arguments share an entry of the bootstrap table. Still every
block runs its own code: the one call site that makes an object of it stands in the method that
directly contains it, and its implementation is the block's own method.
-/

namespace SmalltalkJvm

open Compile

/-- The method that a call site makes an object of. -/
def CallSite.implementation? (site : CallSite) : Option MethodHandle :=
  site.arguments.findSome? fun
    | .handle handle => some handle
    | .methodType _ => none

/-- Blocks with different names have different call sites, and different bootstrap arguments. -/
theorem blockSite_arguments_injective (env : Env) {first second : String}
    (h : (blockSite env first).arguments = (blockSite env second).arguments) : first = second := by
  simp only [blockSite, List.cons.injEq, BootstrapArgument.handle.injEq, MethodHandle.mk.injEq,
    MemberRef.mk.injEq, true_and, and_true] at h
  exact h

theorem count_dynamic (code : List Instruction) (site : CallSite) :
    code.count (.dynamic site) = (code.filterMap Instruction.site?).count site := by
  rw [List.count_filterMap, List.count]
  congr 1
  funext i
  cases i <;> simp [Instruction.site?]

section

variable {env : Env} {script : Script} {g : Generated} {u : CompiledUnit} {fixed : List Method}

variable (u env script g) in
/-- The blocks of a script correspond to the block methods of the primary class, and each of them
to one call site there. -/
structure CompiledUnit.BlocksLinked : Prop where
  length_eq : g.blocks.length = (script.body.blocks env).length
  /-- A block's method is compiled from the block. -/
  compiled (i : Nat) (literal : BlockLiteral) (method : Method)
    (hl : (script.body.blocks env)[i]? = some literal) (hm : g.blocks[i]? = some method) :
    literal.Compiled env g.names i method
  distinct : (u.primary.file.methods.map Method.name).Nodup
  /-- One call site makes an object of a block. It stands in the method that directly contains the
  block, and its implementation is the block's method. -/
  linked (i : Nat) (literal : BlockLiteral) (method : Method)
    (hl : (script.body.blocks env)[i]? = some literal) (hm : g.blocks[i]? = some method) :
    ∃ site, site.implementation? =
        some ⟨.invokeStatic, ⟨u.primary.file.name, method.name, method.descriptor⟩⟩ ∧
      u.primary.file.instructions.count (.dynamic site) = 1 ∧
      ∃ container resolve s, g.Creates env script container resolve s ∧ s.literal = literal ∧
        s.number = i ∧ container ∈ u.primary.file.methods ∧
        container.body.instructions.count (.dynamic site) = 1
  /-- There are no other call sites, and none in the marker classes. -/
  only : ∀ site ∈ u.primary.file.callSites, ∃ method ∈ g.blocks, site.implementation? =
    some ⟨.invokeStatic, ⟨u.primary.file.name, method.name, method.descriptor⟩⟩
  number : u.primary.file.callSites.length = (script.body.blocks env).length
  markers : ∀ c ∈ u.markers, c.file.callSites = []
  /-- Read back, the primary class has a bootstrap method for each block. -/
  read : ∃ s, Summary.parse u.primary.bytes = .ok s ∧
    s.bootstrapMethods = (script.body.blocks env).length

/-- A method has a call site for each block that it creates. -/
theorem Compile.Generated.Creates.mem_callSites (hg : generate env script = .ok g) {m : Method}
    {resolve : String → Resolution} {s : Site} (h : g.Creates env script m resolve s) :
    blockSite env (g.names s.number) ∈ m.body.instructions.filterMap Instruction.site? := by
  cases h with
  | script h =>
    rw [script_callSites hg]
    exact List.mem_map_of_mem h
  | @block i literal _ _ hl hm h =>
    have hcompiled := (generate_outlined env hg).compiled hl hm
    rw [hcompiled.callSites_eq (generate_checked_blocks env hg literal
      (List.mem_of_getElem? hl))]
    exact List.mem_map_of_mem h

namespace CompiledUnit.Consists

variable (hu : u.Consists env script g fixed)

include hu

theorem implementation_blockSite {method : Method} (hm : method ∈ g.blocks) :
    (blockSite env method.name).implementation? =
      some ⟨.invokeStatic, ⟨u.primary.file.name, method.name, method.descriptor⟩⟩ := by
  obtain ⟨literal, -, i, hcompiled⟩ := (generate_outlined env hu.generates).exists_compiled hm
  rw [hu.name, hcompiled.descriptor]
  rfl

theorem nodup_callSites : u.primary.file.callSites.Nodup := by
  rw [hu.callSites_primary.nodup_iff]
  have hnames := (generate_outlined env hu.generates).nodup
  have hmap : (g.blocks.map fun m => blockSite env m.name) =
      (g.blocks.map Method.name).map (blockSite env) := by
    rw [List.map_map]
    rfl
  rw [hmap]
  exact hnames.map fun _ _ heq =>
    blockSite_arguments_injective env (congrArg CallSite.arguments heq)

/-- The call site of a block occurs once in its class. -/
theorem count_blockSite {method : Method} (hm : method ∈ g.blocks) :
    u.primary.file.instructions.count (.dynamic (blockSite env method.name)) = 1 := by
  rw [count_dynamic]
  exact List.count_eq_one_of_mem hu.nodup_callSites
    (hu.callSites_primary.mem_iff.2 (List.mem_map_of_mem hm))

theorem exists_container {i : Nat} {literal : BlockLiteral} {method : Method}
    (hl : (script.body.blocks env)[i]? = some literal) (hm : g.blocks[i]? = some method) :
    ∃ container resolve s, g.Creates env script container resolve s ∧ s.literal = literal ∧
      s.number = i ∧ container ∈ u.primary.file.methods ∧
      container.body.instructions.count (.dynamic (blockSite env method.name)) = 1 := by
  obtain ⟨container, resolve, s, hcreates, hentry⟩ := exists_creates hu.generates hl
  obtain ⟨hliteral, rfl⟩ := Prod.mk.inj hentry
  have hmem : container ∈ u.primary.file.methods := by
    rw [hu.methods]
    exact List.mem_append_right _ hcreates.mem
  have hname : g.names s.number = method.name := by simp [Generated.names, hm]
  have hsite := hcreates.mem_callSites hu.generates
  rw [hname, ← List.one_le_count_iff, ← count_dynamic] at hsite
  have hsublist : container.body.instructions.Sublist u.primary.file.instructions :=
    List.sublist_flatten_of_mem (List.mem_map_of_mem (f := fun m => m.body.instructions) hmem)
  have hle := hsublist.count_le (.dynamic (blockSite env method.name))
  rw [hu.count_blockSite (List.mem_of_getElem? hm)] at hle
  exact ⟨container, resolve, s, hcreates, hliteral, rfl, hmem, Nat.le_antisymm hle hsite⟩

/-- No two blocks share an entry of the bootstrap table. -/
theorem card_bootstraps :
    u.primary.file.bootstraps.toFinset.card = (script.body.blocks env).length := by
  have hlength := hu.callSites_primary.length_eq
  rw [List.length_map, (generate_outlined env hu.generates).blocks.length_eq] at hlength
  rw [ClassFile.bootstraps_eq, List.toFinset_card_of_nodup, List.length_map, hlength]
  refine List.Nodup.map_on (fun x hx y hy heq => ?_) hu.nodup_callSites
  obtain ⟨m, -, rfl⟩ := List.mem_map.1 (hu.callSites_primary.mem_iff.1 hx)
  obtain ⟨m', -, rfl⟩ := List.mem_map.1 (hu.callSites_primary.mem_iff.1 hy)
  rw [blockSite_arguments_injective env (Prod.mk.inj heq).2]

end CompiledUnit.Consists

end

/-- In every compiled unit the blocks of the script are linked to their own methods. -/
theorem compileUnit_links_blocks {settings : Settings} {unit : UnitName} {script : Script}
    {u : CompiledUnit} (h : compileUnit settings unit script = .ok u) :
    ∃ g fixed, u.Consists ⟨settings, unit⟩ script g fixed ∧
      u.BlocksLinked ⟨settings, unit⟩ script g := by
  obtain ⟨g, fixed, hu⟩ := compileUnit_consists h
  have hblocks := (generate_outlined _ hu.generates).blocks
  refine ⟨g, fixed, hu, hblocks.length_eq, ?_, hu.methods_nodup, ?_, ?_, ?_,
    fun c hc => hu.callSites_markers hc, ?_⟩
  · intro i literal method hl hm
    have hcompiled := hblocks.compiled _ hl hm
    rwa [Nat.zero_add] at hcompiled
  · intro i literal method hl hm
    have hmem := List.mem_of_getElem? hm
    exact ⟨_, hu.implementation_blockSite hmem, hu.count_blockSite hmem, hu.exists_container hl hm⟩
  · intro site hsite
    obtain ⟨method, hm, rfl⟩ := List.mem_map.1 (hu.callSites_primary.mem_iff.1 hsite)
    exact ⟨method, hm, hu.implementation_blockSite hm⟩
  · rw [hu.callSites_primary.length_eq, List.length_map, hblocks.length_eq]
  · obtain ⟨p, l, -, hbytes, hl, ha⟩ :=
      exists_assembled h (List.mem_append_right _ (List.mem_singleton_self _))
    obtain ⟨s, hs, hread⟩ := ha.exists_summary hl (moderate_primary h)
    rw [hbytes]
    exact ⟨s, hs, hread.bootstrapMethods.trans hu.card_bootstraps⟩

theorem linked_of_sample : ∃ u, compileUnit {} Sample.unit Sample.script = .ok u ∧
    ∃ g fixed, u.Consists Sample.env Sample.script g fixed ∧ g.blocks.length = 2 ∧
      u.BlocksLinked Sample.env Sample.script g := by
  obtain ⟨u, hu⟩ := Sample.compiles
  obtain ⟨g, fixed, hconsists, hlinked⟩ := compileUnit_links_blocks hu
  exact ⟨u, hu, g, fixed, hconsists, (Sample.generated hconsists.generates).1, hlinked⟩

end SmalltalkJvm
