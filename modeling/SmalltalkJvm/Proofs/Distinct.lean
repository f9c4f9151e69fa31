import SmalltalkJvm.ClassStore
import SmalltalkJvm.Proofs.Wiring

/-! # Names inside a unit are distinct

The methods before the script's own have reserved names, which no block takes, and blocks differ
from each other. A marker class adds to the name of its unit, so it is neither the primary class nor
the marker of another block. A store without any of these names therefore takes the unit.
-/

namespace SmalltalkJvm

open Compile

theorem fixedMethods_names {env : Env} {fixed : List Method} (h : fixedMethods env = .ok fixed) :
    (fixed.map Method.name).Sublist ["<init>", "packageName", "importFor"] := by
  obtain ⟨construct, hconstruct, h⟩ := except_bind_ok h
  obtain ⟨packageName, hpackage, h⟩ := except_bind_ok h
  have hfirst := (fixedMethod_ok hconstruct).2
  have hsecond := (fixedMethod_ok hpackage).2
  split_ifs at h
  · cases h
    rw [List.map_cons, List.map_cons, hfirst, hsecond]
    simp
  · obtain ⟨importFor, himport, h⟩ := except_bind_ok h
    cases h
    rw [List.map_cons, List.map_cons, List.map_cons, hfirst, hsecond, (fixedMethod_ok himport).2]
    simp

namespace CompiledUnit.Consists

variable {u : CompiledUnit} {env : Env} {script : Script} {g : Generated} {fixed : List Method}

theorem methods_nodup (h : u.Consists env script g fixed) :
    (u.primary.file.methods.map Method.name).Nodup := by
  have houtlined := generate_outlined env h.generates
  have hfixed := fixedMethods_names h.prepares
  have hreserved : ∀ name ∈ fixed.map Method.name ++ ["sendMessages"],
      name ∈ BlockName.reserved := by
    intro name hname
    have := (hfixed.append_right ["sendMessages"]).subset hname
    simpa [BlockName.reserved] using this
  rw [h.methods, List.map_append, List.map_cons, houtlined.name, List.append_cons,
    List.nodup_append']
  refine ⟨(hfixed.append_right ["sendMessages"]).nodup (by decide), houtlined.nodup, ?_⟩
  intro name hname hblock
  obtain ⟨m, hm, rfl⟩ := List.mem_map.1 hblock
  exact houtlined.unreserved m hm (hreserved m.name hname)

/-- The name of a marker class is longer than that of the primary class. -/
theorem name_notMem_markers (h : u.Consists env script g fixed) :
    u.primary.name ∉ u.markers.map CompiledClass.name := by
  intro hmem
  obtain ⟨c, hc, hname⟩ := List.mem_map.1 hmem
  have hfile : c.file.name ∈ u.markers.map fun c => c.file.name := List.mem_map_of_mem hc
  rw [h.markers_eq] at hfile
  obtain ⟨i, literal, -, -, hmarker⟩ := mem_markersOf.1 hfile
  rw [CompiledClass.name, CompiledClass.name, ClassFile.binaryName, ClassFile.binaryName, hmarker,
    h.name] at hname
  have hlength : env.unit.binary.length + "$A".length + (g.names i).length =
      env.unit.binary.length := by
    simpa [dotted, slashed, Env.markerName, UnitName.internal, UnitName.marker] using
      congrArg String.length hname
  have hpositive : 0 < "$A".length := by decide
  omega

theorem classes_nodup (h : u.Consists env script g fixed) :
    (u.classes.map CompiledClass.name).Nodup := by
  have houtlined := generate_outlined env h.generates
  rw [CompiledUnit.classes, List.map_append, List.nodup_append']
  refine ⟨?_, List.nodup_singleton _, ?_⟩
  · have hnames : u.markers.map CompiledClass.name =
        (u.markers.map fun c => c.file.name).map dotted := by
      rw [List.map_map]
      rfl
    rw [hnames, h.markers_eq]
    exact houtlined.markersOf_nodup
  · intro name hname hprimary
    rw [List.map_singleton, List.mem_singleton] at hprimary
    rw [hprimary] at hname
    exact h.name_notMem_markers hname

end CompiledUnit.Consists

namespace ClassStore

theorem refused?_go_eq_none {s : ClassStore} {batch : List CompiledClass}
    (hnew : ∀ c ∈ batch, s.contains c.name = false) (hnodup : (batch.map CompiledClass.name).Nodup)
    (seen : Std.HashSet String) (hseen : ∀ c ∈ batch, c.name ∉ seen) :
    refused?.go s seen batch = none := by
  induction batch generalizing seen with
  | nil => rfl
  | cons c batch ih =>
    obtain ⟨hc, hnew⟩ := List.forall_mem_cons.1 hnew
    obtain ⟨hunseen, hseen⟩ := List.forall_mem_cons.1 hseen
    rw [List.map_cons, List.nodup_cons] at hnodup
    have hfree : seen.contains c.name = false := by simpa using hunseen
    rw [refused?.go, hc, hfree]
    refine ih hnew hnodup.2 _ fun d hd hmem => ?_
    rcases Std.HashSet.mem_insert.1 hmem with heq | hmem
    · refine hnodup.1 (List.mem_map.2 ⟨d, hd, ?_⟩)
      exact (eq_of_beq heq).symm
    · exact hseen d hd hmem

/-- A batch of new and distinct names is defined as a whole. -/
theorem defineAll_of_nodup {s : ClassStore} {batch : List CompiledClass}
    (hnew : ∀ c ∈ batch, s.contains c.name = false)
    (hnodup : (batch.map CompiledClass.name).Nodup) :
    s.defineAll batch = .ok (batch.length, batch.foldl insert s) := by
  have hnone : s.refused? batch = none :=
    refused?_go_eq_none hnew hnodup ∅ fun c _ => Std.HashSet.not_mem_empty
  rw [defineAll, hnone]

end ClassStore

/-- No two methods of a compiled unit's primary class and no two of its classes share a name, the
names of its blocks are legal and their own, and a store that has none of its names takes it. -/
theorem compileUnit_names_distinct {settings : Settings} {unit : UnitName} {script : Script}
    {u : CompiledUnit} (h : compileUnit settings unit script = .ok u) :
    (u.primary.file.methods.map Method.name).Nodup ∧
      (∃ g fixed, u.Consists ⟨settings, unit⟩ script g fixed ∧ ∀ m ∈ g.blocks,
        m.name ∉ ["<init>", "packageName", "importFor", "sendMessages"] ∧ m.name ≠ "" ∧
          ∀ c ∈ ['.', ';', '[', '/', '<', '>'], c ∉ m.name.toList) ∧
      (u.classes.map CompiledClass.name).Nodup ∧
      ∀ store : ClassStore, (∀ c ∈ u.classes, store.contains c.name = false) →
        store.compile settings unit script = .ok (u, u.classes.foldl ClassStore.insert store) := by
  obtain ⟨g, fixed, hu⟩ := compileUnit_consists h
  have houtlined := generate_outlined _ hu.generates
  refine ⟨hu.methods_nodup, ⟨g, fixed, hu, fun m hm => ⟨houtlined.unreserved m hm, ?_⟩⟩,
    hu.classes_nodup, fun store hnew => ?_⟩
  · have hlegal := houtlined.legal m hm
    simp only [BlockName.isLegal, Bool.and_eq_true, bne_iff_ne, List.all_eq_true,
      Bool.not_eq_true', List.contains_eq_mem, decide_eq_false_iff_not] at hlegal
    exact ⟨hlegal.1, fun c hc hmem => hlegal.2 c hmem hc⟩
  · rw [ClassStore.compile, h]
    simp only [ClassStore.defineAll_of_nodup hnew hu.classes_nodup]

theorem names_distinct_of_sample : ∃ u, compileUnit {} Sample.unit Sample.script = .ok u ∧
    (∀ c ∈ u.classes, ({} : ClassStore).contains c.name = false) ∧
    (u.primary.file.methods.map Method.name).Nodup ∧ (u.classes.map CompiledClass.name).Nodup ∧
    ({} : ClassStore).compile {} Sample.unit Sample.script =
      .ok (u, u.classes.foldl ClassStore.insert {}) := by
  obtain ⟨u, hu⟩ := Sample.compiles
  obtain ⟨hmethods, -, hclasses, hcompile⟩ := compileUnit_names_distinct hu
  have hnew : ∀ c ∈ u.classes, ({} : ClassStore).contains c.name = false :=
    fun c _ => Std.TreeMap.contains_emptyc
  exact ⟨u, hu, hnew, hmethods, hclasses, hcompile {} hnew⟩

end SmalltalkJvm
