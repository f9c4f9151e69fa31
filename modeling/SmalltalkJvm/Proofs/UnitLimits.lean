import SmalltalkJvm.Compile.Unit
import SmalltalkJvm.Proofs.Generation
import SmalltalkJvm.Proofs.Limits

/-! # Units within the limits of the format

A script compiles if its code can be generated and the classes of its unit are within the limits.
The sample script is a keyword message with another one among its arguments. Each of the two creates
a block that answers from the script's method, so that the unit has two marker classes, and two
exception entries with one range inside the other.
-/

namespace SmalltalkJvm

open Compile

theorem compileUnit_of_fits {settings : Settings} {unit : UnitName} {script : Script}
    {g : Generated} {file : ClassFile} (hgenerate : generate ⟨settings, unit⟩ script = .ok g)
    (hfile : primaryClass ⟨settings, unit⟩ g = .ok file) (hfits : file.Fits)
    (hmarkers : ∀ c ∈ g.markers, c.Fits) : ∃ u, compileUnit settings unit script = .ok u := by
  have hassemble {c : ClassFile} (hc : c.Fits) : ∃ x, CompiledClass.assemble c = .ok x := by
    obtain ⟨bytes, hbytes⟩ := ClassFile.exists_bytes_of_fits hc
    exact ⟨⟨c, bytes⟩, by rw [CompiledClass.assemble, hbytes]⟩
  obtain ⟨primary, hprimary⟩ := hassemble hfits
  obtain ⟨markers, hmarkers⟩ := exists_mapM fun c hc => hassemble (hmarkers c hc)
  refine ⟨⟨primary, markers⟩, ?_⟩
  unfold compileUnit
  simp only [hgenerate, hfile, hprimary, hmarkers, bind, Except.bind, pure, Except.pure]

namespace Sample

def span : Span := ⟨1, 1, 0⟩

def unit : UnitName := ⟨"st.app", "Main"⟩

def env : Env := ⟨{}, unit⟩

def answering (number : String) : Sequence :=
  ⟨[], [.answer (.literal .number number span) span], span⟩

def body : Sequence := answering "3"

/-- `self do: [^ 4]` -/
def inner : Expr :=
  .send (.pseudo .self span) (.keyword [⟨⟨"do:", span⟩, .block [] (answering "4") span⟩] span) span

/-- `self at: [^ 3] put: (self do: [^ 4])` -/
def outer : Expr :=
  let parts : List KeywordPart :=
    [⟨⟨"at:", span⟩, .block [] body span⟩, ⟨⟨"put:", span⟩, .paren inner span⟩]
  .send (.pseudo .self span) (.keyword parts span) span

def script : Script := ⟨⟨[], [.expression outer], span⟩, span⟩

theorem generates : ∃ g, generate env script = .ok g := exists_ok_of_isOk (by decide +kernel)

end Sample

end SmalltalkJvm
