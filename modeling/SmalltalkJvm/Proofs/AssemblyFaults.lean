import SmalltalkJvm.Proofs.FrameReading
import SmalltalkJvm.Proofs.Resolution

/-! # Why a body cannot be written

The faults that writing a method can end with are limits of the class-file format and things that
the body refers to but does not have. If all of them are there, only limits remain. A body that was
finished from a draft has all but perhaps the labels of its handlers, and such a label makes the
body impossible to write.
-/

namespace SmalltalkJvm

def AssemblyFault.isLimit : AssemblyFault → Bool
  | poolOverflow | textTooLong | codeLength .. | branchRange .. | lineRange .. => true
  | unplacedLabel .. | missingCreation _ | descriptor _ => false

def FailsOnly {σ α : Type} (P : AssemblyFault → Prop) (x : EStateM AssemblyFault σ α) : Prop :=
  ∀ s fault s', x s = .error fault s' → P fault

section

variable {σ α β γ : Type} {P Q : AssemblyFault → Prop} {x : EStateM AssemblyFault σ α}

theorem failsOnly_pure (a : α) : FailsOnly P (pure a : EStateM AssemblyFault σ α) := by
  rintro s fault s' ⟨⟩

theorem failsOnly_throw {fault : AssemblyFault} (h : P fault) :
    FailsOnly P (throw fault : EStateM AssemblyFault σ α) := by
  rintro s fault s' ⟨⟩
  exact h

theorem FailsOnly.mono (h : FailsOnly P x) (hP : ∀ fault, P fault → Q fault) : FailsOnly Q x :=
  fun s fault s' hx => hP fault (h s fault s' hx)

/-- The second action matters only where the first one succeeds. -/
theorem FailsOnly.bind {f : α → EStateM AssemblyFault σ β} (hx : FailsOnly P x)
    (hf : ∀ s a s', x s = .ok a s' → FailsOnly P (f a)) : FailsOnly P (x >>= f) := by
  intro s fault s' h
  rcases bind_error h with hfirst | ⟨a, s₁, hfirst, hsecond⟩
  · exact hx s fault s' hfirst
  · exact hf s a s₁ hfirst s₁ fault s' hsecond

theorem FailsOnly.map (h : FailsOnly P x) (f : α → β) :
    FailsOnly P (x >>= fun a => pure (f a)) :=
  h.bind fun _ a _ _ => failsOnly_pure (f a)

theorem FailsOnly.mapM {f : γ → EStateM AssemblyFault σ α} {xs : List γ}
    (h : ∀ x ∈ xs, FailsOnly P (f x)) : FailsOnly P (xs.mapM f) := by
  induction xs with
  | nil => exact failsOnly_pure []
  | cons x xs ih =>
    rw [List.mapM_cons]
    obtain ⟨hx, hxs⟩ := List.forall_mem_cons.1 h
    exact hx.bind fun _ y _ _ => (ih hxs).map (y :: ·)

end

abbrev StopsAtLimits {σ α : Type} (x : EStateM AssemblyFault σ α) : Prop :=
  FailsOnly (fun fault => fault.isLimit = true) x

namespace ConstantPool

theorem stopsAtLimits_intern (c : Constant) : StopsAtLimits (intern c) := by
  intro p fault p' h
  rw [(intern_error h).1]
  rfl

theorem stopsAtLimits_utf8 (text : String) : StopsAtLimits (utf8 text) := by
  unfold utf8
  split_ifs
  · exact stopsAtLimits_intern _
  · exact failsOnly_throw rfl

theorem stopsAtLimits_classRef (name : String) : StopsAtLimits (classRef name) :=
  (stopsAtLimits_utf8 name).bind fun _ _ _ _ => stopsAtLimits_intern _

theorem stopsAtLimits_nameAndType (name descriptor : String) :
    StopsAtLimits (nameAndType name descriptor) :=
  (stopsAtLimits_utf8 name).bind fun _ _ _ _ =>
    (stopsAtLimits_utf8 descriptor).bind fun _ _ _ _ => stopsAtLimits_intern _

/-- The kinds of members differ in their constant only. -/
theorem stopsAtLimits_member (m : MemberRef) (make : Nat → Nat → Constant) :
    StopsAtLimits (do
      let owner ← classRef m.owner
      let nameAndType ← nameAndType m.name m.descriptor
      intern (make owner nameAndType)) :=
  (stopsAtLimits_classRef m.owner).bind fun _ _ _ _ =>
    (stopsAtLimits_nameAndType m.name m.descriptor).bind fun _ _ _ _ => stopsAtLimits_intern _

theorem stopsAtLimits_handle (h : MethodHandle) : StopsAtLimits (handle h) := by
  unfold handle
  dsimp only
  split
  all_goals exact (stopsAtLimits_member h.target _).bind fun _ _ _ _ => stopsAtLimits_intern _

end ConstantPool

namespace Link

open ConstantPool

variable {α : Type}

theorem failsOnly_ofRequest {P : AssemblyFault → Prop} {r : Request α} (h : FailsOnly P r) :
    FailsOnly P (ofRequest r) := by
  rintro ⟨pool, bootstraps⟩ fault l' hfault
  simp only [ofRequest] at hfault
  split at hfault
  · cases hfault
  · rename_i hr
    cases hfault
    exact h pool _ _ hr

theorem failsOnly_ofExcept {P : AssemblyFault → Prop} {x : Except AssemblyFault α}
    (h : ∀ fault, x = .error fault → P fault) : FailsOnly P (ofExcept x) := by
  cases x with
  | ok a => exact failsOnly_pure a
  | error fault => exact failsOnly_throw (h fault rfl)

theorem stopsAtLimits_bootstrapIndex (entry : Bootstrap) :
    StopsAtLimits (bootstrapIndex entry) := by
  rintro ⟨pool, bootstraps⟩ fault l' h
  simp only [bootstrapIndex] at h
  split at h <;> cases h

theorem stopsAtLimits_argument (a : BootstrapArgument) : StopsAtLimits (argument a) := by
  cases a with
  | methodType descriptor =>
    exact (stopsAtLimits_utf8 descriptor).bind fun _ _ _ _ => stopsAtLimits_intern _
  | handle handle => exact stopsAtLimits_handle handle

theorem stopsAtLimits_callSite (site : CallSite) : StopsAtLimits (callSite site) := by
  refine (failsOnly_ofRequest (stopsAtLimits_handle site.bootstrap)).bind fun _ handle _ _ => ?_
  refine (FailsOnly.mapM fun a _ => failsOnly_ofRequest (stopsAtLimits_argument a)).bind
    fun _ arguments _ _ => ?_
  refine (stopsAtLimits_bootstrapIndex ⟨handle, arguments⟩).bind fun _ bootstrap _ _ => ?_
  exact failsOnly_ofRequest ((stopsAtLimits_nameAndType site.name site.descriptor).bind
    fun _ _ _ _ => stopsAtLimits_intern _)

end Link

open Link ConstantPool in
theorem Operand.stopsAtLimits_number (operand : Operand) : StopsAtLimits operand.number := by
  cases operand with
  | constant value =>
    cases value with
    | string text =>
      exact failsOnly_ofRequest ((stopsAtLimits_utf8 text).bind fun _ _ _ _ =>
        stopsAtLimits_intern _)
    | int value => exact failsOnly_ofRequest (stopsAtLimits_intern _)
  | classRef name => exact failsOnly_ofRequest (stopsAtLimits_classRef name)
  | field member | method member | interfaceMethod member =>
    exact failsOnly_ofRequest (stopsAtLimits_member member _)
  | callSite site => exact stopsAtLimits_callSite site

theorem Instruction.stopsAtLimits_link (i : Instruction) : StopsAtLimits i.link := by
  cases i with
  | plain op | push op value | slot op index | jump op target | mark label | line number =>
    exact failsOnly_pure _
  | constant value =>
    cases value with
    | string text => exact (Operand.constant (.string text)).stopsAtLimits_number.map _
    | int value => exact (Operand.constant (.int value)).stopsAtLimits_number.map _
  | classRef op name => exact (Operand.classRef name).stopsAtLimits_number.map _
  | field op member => exact (Operand.field member).stopsAtLimits_number.map _
  | dynamic site => exact (Operand.callSite site).stopsAtLimits_number.map _
  | invoke op member =>
    rw [link]
    split_ifs
    · exact (Operand.interfaceMethod member).stopsAtLimits_number.map _
    · exact (Operand.method member).stopsAtLimits_number.map _

theorem Layout.offset_error {code : List Linked} {method : String} {label : Label}
    {fault : AssemblyFault} (h : (ofList code).offset method label = .error fault) :
    fault = .unplacedLabel label method ∧ .mark label ∉ code := by
  have hmem : .mark label ∉ code := by
    intro hmem
    obtain ⟨pc, hpc⟩ := exists_offset method hmem
    rw [hpc] at h
    cases h
  rw [offset, labels_ofList_of_notMem hmem] at h
  cases h
  exact ⟨rfl, hmem⟩

theorem ExceptionEntry.bytes_of_unplaced {linked : List Linked} {method : String}
    {e : ExceptionEntry} (hstart : .mark e.start ∈ linked) (hstop : .mark e.stop ∈ linked)
    (hhandler : .mark e.handler ∉ linked) (l : Linker) :
    e.bytes (Layout.ofList linked) method l = .error (.unplacedLabel e.handler method) l := by
  obtain ⟨start, hstart⟩ := Layout.exists_offset method hstart
  obtain ⟨stop, hstop⟩ := Layout.exists_offset method hstop
  have hnone : (Layout.ofList linked).offset method e.handler =
      .error (.unplacedLabel e.handler method) := by
    rw [Layout.offset, Layout.labels_ofList_of_notMem hhandler]
  unfold ExceptionEntry.bytes
  rw [hstart, hstop, hnone]
  rfl

/-- The ways in which a body may fail to be written: a limit, or a handler that is nowhere. -/
def MethodBody.CanFailWith (b : MethodBody) (name : String) (fault : AssemblyFault) : Prop :=
  fault.isLimit = true ∨
    ∃ e ∈ b.handlers, .mark e.handler ∉ b.instructions ∧ fault = .unplacedLabel e.handler name

namespace MethodBody.Resolved

variable {R : Operand → Nat → Prop} {b : MethodBody} {linked : List Linked} {name : String}
  (h : b.Resolved) (hlinks : List.Forall₂ (Instruction.LinksTo R) b.instructions linked)

include h hlinks

theorem isLimit_of_bytes {i : Instruction} {k : Linked} (hi : i ∈ b.instructions)
    (hik : i.LinksTo R k) {pc : Nat} {fault : AssemblyFault}
    (hfault : k.bytes (Layout.ofList linked) name pc = .error fault) : fault.isLimit = true := by
  cases i with
  | plain op | slot op index | mark label =>
    cases hik
    cases hfault
  | push op value =>
    cases hik
    simp only [Linked.bytes] at hfault
    split_ifs at hfault
  | constant value =>
    obtain ⟨n, -, rfl⟩ := hik
    simp only [Linked.bytes] at hfault
    split_ifs at hfault
  | classRef op name | field op name | dynamic site =>
    obtain ⟨n, -, rfl⟩ := hik
    cases hfault
  | line number =>
    cases hik
    simp only [Linked.bytes] at hfault
    split_ifs at hfault
    cases hfault
    rfl
  | invoke op method =>
    obtain ⟨-, n, -, rfl⟩ | ⟨-, n, -, rfl⟩ := hik
    · have hparsed := h.calls op method hi
      simp only [Linked.bytes] at hfault
      split at hfault
      · cases hfault
      · rename_i he
        rw [he] at hparsed
        cases hparsed
    · cases hfault
  | jump op target =>
    cases hik
    obtain ⟨destination, hdestination⟩ := Layout.exists_offset name
      (Instruction.mark_mem_of_linksTo hlinks (h.jumps op target hi))
    simp only [Linked.bytes, hdestination] at hfault
    split_ifs at hfault
    cases hfault
    rfl

theorem isLimit_of_code {fault : AssemblyFault}
    (hfault : (Layout.ofList linked).code name = .error fault) : fault.isLimit = true := by
  rcases except_bind_error hfault with hparts | ⟨parts, -, hreturn⟩
  · obtain ⟨⟨pc, k⟩, hk, hbytes⟩ := except_mapM_error hparts
    rw [Layout.placed_ofList] at hk
    obtain ⟨i, hi, hik⟩ := exists_of_mem_right hlinks (mem_withOffsets hk).1
    exact h.isLimit_of_bytes hlinks hi hik hbytes
  · cases hreturn

theorem failsOnly_row {e : ExceptionEntry} (he : e ∈ b.handlers) :
    FailsOnly (b.CanFailWith name) (e.bytes (Layout.ofList linked) name) := by
  obtain ⟨hstart, hstop⟩ := h.ranges e he
  unfold ExceptionEntry.bytes
  refine (Link.failsOnly_ofExcept fun fault hfault => ?_).bind fun _ _ _ _ => ?_
  · exact absurd (Instruction.mark_mem_of_linksTo hlinks hstart) (Layout.offset_error hfault).2
  refine (Link.failsOnly_ofExcept fun fault hfault => ?_).bind fun _ _ _ _ => ?_
  · exact absurd (Instruction.mark_mem_of_linksTo hlinks hstop) (Layout.offset_error hfault).2
  refine (Link.failsOnly_ofExcept fun fault hfault => ?_).bind fun _ _ _ _ => ?_
  · obtain ⟨hfault, hhandler⟩ := Layout.offset_error hfault
    have hmark : .mark e.handler ∉ b.instructions :=
      mt (Instruction.mark_mem_of_linksTo hlinks) hhandler
    exact .inr ⟨e, he, hmark, hfault⟩
  split
  · rename_i caught _
    exact ((Link.failsOnly_ofRequest (ConstantPool.stopsAtLimits_classRef caught)).map _).mono
      fun _ => .inl
  · exact failsOnly_pure _

end MethodBody.Resolved

namespace StackMap

variable {code : List Instruction} {linked : List Linked} (hlength : linked.length = code.length)

include hlength

theorem stopsAtLimits_typeBytes {t : VerificationType} (ht : t.CreatedIn code) :
    StopsAtLimits (typeBytes (Layout.ofList linked) t) := by
  cases t with
  | object name =>
    exact (Link.failsOnly_ofRequest (ConstantPool.stopsAtLimits_classRef name)).map _
  | uninitialized creation =>
    obtain ⟨className, hclass⟩ := ht creation rfl
    have hlt : creation < linked.length := by
      rw [hlength]
      exact (List.getElem?_eq_some_iff.1 hclass).1
    simp only [typeBytes, Layout.offsetOf?_ofList, List.getElem?_eq_getElem hlt]
    exact failsOnly_pure _
  | _ => exact failsOnly_pure _

theorem stopsAtLimits_typesBytes {types : List VerificationType}
    (h : ∀ t ∈ types, t.CreatedIn code) :
    StopsAtLimits (typesBytes (Layout.ofList linked) types) :=
  (FailsOnly.mapM fun t ht => stopsAtLimits_typeBytes hlength (h t ht)).map _

theorem stopsAtLimits_frameBytes {locals : List VerificationType} {f : PlacedStack}
    (h : ∀ t ∈ locals ++ f.2, t.CreatedIn code) :
    StopsAtLimits (frameBytes (Layout.ofList linked) locals f) := by
  obtain ⟨hlocals, hstack⟩ := List.forall_mem_append.1 h
  unfold frameBytes
  split
  · exact failsOnly_pure _
  · exact (stopsAtLimits_typeBytes hlength (hstack _ List.mem_cons_self)).map _
  · exact (stopsAtLimits_typesBytes hlength hlocals).bind fun _ _ _ _ =>
      (stopsAtLimits_typesBytes hlength hstack).map _

theorem stopsAtLimits_bytes {locals : List VerificationType} {frames : List PlacedStack}
    (h : ∀ f ∈ frames, ∀ t ∈ locals ++ f.2, t.CreatedIn code) :
    StopsAtLimits (bytes (Layout.ofList linked) locals frames) := by
  refine (FailsOnly.mapM fun f hf => stopsAtLimits_frameBytes hlength ?_).map _
  obtain ⟨g, hg, hstack⟩ := exists_of_mem_distances hf
  rw [← hstack]
  exact h g hg

end StackMap

theorem stopsAtLimits_lineAttribute (lines : List (Nat × Nat)) :
    StopsAtLimits (lineAttribute lines) := by
  unfold lineAttribute
  split_ifs
  · exact failsOnly_pure _
  · exact (Link.failsOnly_ofRequest (ConstantPool.stopsAtLimits_utf8 _)).map _

namespace Method

variable {m : Method}

theorem stopsAtLimits_stackMapAttribute (h : m.body.Resolved) {R : Operand → Nat → Prop}
    {linked : List Linked}
    (hlinks : List.Forall₂ (Instruction.LinksTo R) m.body.instructions linked) :
    StopsAtLimits (stackMapAttribute (Layout.ofList linked) m) := by
  unfold stackMapAttribute
  split_ifs
  · exact failsOnly_pure _
  refine (Link.failsOnly_ofExcept fun fault hfault => ?_).bind fun l placed l' hplaced => ?_
  · -- Every frame has its label.
    obtain ⟨f, hf, hplace⟩ := except_mapM_error hfault
    rcases except_bind_error hplace with hoffset | ⟨pc, -, hreturn⟩
    · exact absurd (Instruction.mark_mem_of_linksTo hlinks (h.frames f hf))
        (Layout.offset_error hoffset).2
    · cases hreturn
  · have hplaced : m.body.frames.mapM (StackMap.place (Layout.ofList linked) m.name) =
        .ok placed := (Link.leaves_ofExcept l placed l' hplaced).2 l' (.refl _)
    refine (Link.failsOnly_ofRequest (ConstantPool.stopsAtLimits_utf8 _)).bind fun _ _ _ _ => ?_
    refine (StackMap.stopsAtLimits_bytes hlinks.length_eq.symm fun x hx => ?_).map _
    obtain ⟨f, hf, hplace⟩ := exists_of_mem_right (except_mapM_ok hplaced)
      ((StackMap.subperm_arrange placed).subset hx)
    rw [(MethodBody.place_ok hplace).2]
    exact h.created f hf

theorem failsOnly_codeBytes (h : m.body.Resolved) :
    FailsOnly (m.body.CanFailWith m.name) m.codeBytes := by
  have hlimit {α : Type} {x : Link α} (hx : StopsAtLimits x) :
      FailsOnly (m.body.CanFailWith m.name) x := hx.mono fun _ => .inl
  refine (hlimit (FailsOnly.mapM fun i _ => i.stopsAtLimits_link)).bind
    fun l linked l' hlinked => ?_
  have hlinks := (Link.Leaves.mapM Instruction.leaves_link m.body.instructions l linked l'
    hlinked).2 l' (.refl _)
  dsimp only
  split_ifs
  · exact FailsOnly.bind (failsOnly_throw (.inl rfl)) fun _ _ _ hthrow => by cases hthrow
  refine (Link.failsOnly_ofExcept fun fault hfault => .inl (h.isLimit_of_code hlinks hfault)).bind
    fun _ _ _ _ => ?_
  refine (FailsOnly.mapM fun e he => h.failsOnly_row hlinks he).bind fun _ _ _ _ => ?_
  refine (hlimit (stopsAtLimits_lineAttribute _)).bind fun _ _ _ _ => ?_
  exact (hlimit (stopsAtLimits_stackMapAttribute h hlinks)).map _

theorem failsOnly_bytes (h : m.body.Resolved) :
    FailsOnly (m.body.CanFailWith m.name) m.bytes := by
  have hutf8 (text : String) : FailsOnly (m.body.CanFailWith m.name)
      (Link.ofRequest (ConstantPool.utf8 text)) :=
    (Link.failsOnly_ofRequest (ConstantPool.stopsAtLimits_utf8 text)).mono fun _ => .inl
  exact (hutf8 _).bind fun _ _ _ _ => (hutf8 _).bind fun _ _ _ _ => (hutf8 _).bind
    fun _ _ _ _ => (failsOnly_codeBytes h).map _

/-- A method that is written has all its handlers. -/
theorem mark_mem_of_bytes {l l' : Linker} {bytes : List UInt8} (h : m.bytes l = .ok bytes l')
    {e : ExceptionEntry} (he : e ∈ m.body.handlers) : .mark e.handler ∈ m.body.instructions := by
  obtain ⟨_, _, -, h⟩ := bind_ok h
  obtain ⟨_, _, -, h⟩ := bind_ok h
  obtain ⟨_, _, -, h⟩ := bind_ok h
  obtain ⟨_, l₁, hcode, -⟩ := bind_ok h
  obtain ⟨p, hp, -⟩ := exists_codeParts hcode
  have hwritten := (leaves_codeParts m _ p l₁ hp).2 l₁ (.refl _)
  obtain ⟨row, -, start, stop, handler, caught, -, -, hhandler, -⟩ :=
    exists_of_mem_left hwritten.handlers he
  obtain ⟨before, after, hlinked, -⟩ := Layout.offset_ok hhandler
  have hmark : .mark e.handler ∈ p.linked := by simp [hlinked]
  obtain ⟨i, hi, hlinks⟩ := exists_of_mem_right hwritten.links hmark
  rwa [hlinks.eq_mark] at hi

end Method

/-- Whatever steps a body is built by, if no object is under construction on entry and labels are
made before something branches to them, the labels of its branches, ranges and frames and the
creations in its frames are there. A method with the body fails to be written only at a limit of the
format or for want of a handler's label, and without that label it always fails. -/
theorem Draft.finish_resolves {d : Draft} (hd : d.IsNew) {steps : List Step}
    (hentry : ∀ creation, .uninitialized creation ∉ d.entryLocals)
    (hmade : madeFirst Step.target? 0 steps = true) {b : MethodBody}
    (h : (d.run steps).finish = .ok b) :
    b.Resolved ∧ ∀ m : Method, m.body = b →
      (∀ l fault l', m.bytes l = .error fault l' → b.CanFailWith m.name fault) ∧
      ∀ e ∈ b.handlers, .mark e.handler ∉ b.instructions →
        ∀ l, ∃ fault l', m.bytes l = .error fault l' := by
  have hresolved := resolved_of_finish hd hentry hmade h
  refine ⟨hresolved, ?_⟩
  rintro m rfl
  refine ⟨Method.failsOnly_bytes hresolved, fun e he hhandler l => ?_⟩
  cases hbytes : m.bytes l with
  | error fault l' => exact ⟨fault, l', rfl⟩
  | ok bytes l' => exact absurd (Method.mark_mem_of_bytes hbytes he) hhandler

namespace Unhandled

/-- A frame holds an object under construction, and a range has a handler that is nowhere. -/
def steps : List Draft.Step :=
  [.label, .label, .label, .label, .mark ⟨0⟩, .create "st/Greeter", .plain .dup, .goto ⟨3⟩,
    .mark ⟨1⟩, .mark ⟨3⟩, .invoke .invokespecial ⟨"st/Greeter", "<init>", "()V"⟩, .plain .areturn,
    .protect ⟨⟨0⟩, ⟨1⟩, ⟨2⟩, none⟩]

def body : MethodBody where
  instructions := [.mark ⟨0⟩, .classRef .new "st/Greeter", .plain .dup, .jump .goto ⟨3⟩,
    .mark ⟨1⟩, .mark ⟨3⟩, .invoke .invokespecial ⟨"st/Greeter", "<init>", "()V"⟩, .plain .areturn]
  handlers := [⟨⟨0⟩, ⟨1⟩, ⟨2⟩, none⟩]
  frames := [⟨⟨3⟩, [.uninitialized 1, .uninitialized 1]⟩]
  locals := [.object "st/Greeter"]
  maxStack := 2
  maxLocals := 1

theorem finishes : ((Draft.method [.object "st/Greeter"]).run steps).finish = .ok body := by
  decide +kernel

end Unhandled

theorem resolves_unhandled :
    ((Draft.method [.object "st/Greeter"]).run Unhandled.steps).finish = .ok Unhandled.body ∧
      Unhandled.body.Resolved ∧ ∀ m : Method, m.body = Unhandled.body → ∀ l, ∃ fault l',
        m.bytes l = .error fault l' ∧ Unhandled.body.CanFailWith m.name fault := by
  obtain ⟨hresolved, hbytes⟩ := Draft.finish_resolves (.method _ _) (by simp [Draft.method])
    (by decide) Unhandled.finishes
  refine ⟨Unhandled.finishes, hresolved, fun m hm l => ?_⟩
  obtain ⟨hfault, hfails⟩ := hbytes m hm
  obtain ⟨fault, l', h⟩ := hfails _ List.mem_cons_self (by decide) l
  exact ⟨fault, l', h, hfault l fault l' h⟩

/-- A body is finished although the label of its handler is nowhere, and no method with it can be
written. -/
theorem handler_label_unplaced :
    ∃ b, ((Draft.method [.object "a/B"]).run [.label, .label, .label, .mark ⟨0⟩, .load 0,
        .mark ⟨1⟩, .plain .areturn, .protect ⟨⟨0⟩, ⟨1⟩, ⟨2⟩, none⟩]).finish = .ok b ∧
      b.handlers = [⟨⟨0⟩, ⟨1⟩, ⟨2⟩, none⟩] ∧ .mark ⟨2⟩ ∉ b.instructions ∧
      ∀ m : Method, m.body = b → ∀ l, m.codeBytes l = .error (.unplacedLabel ⟨2⟩ m.name) l := by
  refine ⟨{ instructions := [.mark ⟨0⟩, .slot .aload 0, .mark ⟨1⟩, .plain .areturn]
            handlers := [⟨⟨0⟩, ⟨1⟩, ⟨2⟩, none⟩]
            frames := []
            locals := [.object "a/B"]
            maxStack := 1
            maxLocals := 1 }, by decide +kernel, rfl, by decide, fun m hm l => ?_⟩
  obtain ⟨linked, hlinked⟩ : ∃ linked : List Linked,
      linked = [.mark ⟨0⟩, .slot .aload 0, .mark ⟨1⟩, .plain .areturn] := ⟨_, rfl⟩
  have hlink : m.body.instructions.mapM Instruction.link l = .ok linked l := by
    rw [hm, hlinked]
    rfl
  have hsize : ¬((Layout.ofList linked).size = 0 ∨
      AssemblyFault.limit < (Layout.ofList linked).size) := by
    rw [Layout.size_ofList, hlinked]
    decide
  have hcode : Link.ofExcept ((Layout.ofList linked).code m.name) l =
      .ok [Opcode.aload0.byte, Opcode.areturn.byte] l := by
    rw [hlinked]
    rfl
  have hrow : ExceptionEntry.bytes (Layout.ofList linked) m.name ⟨⟨0⟩, ⟨1⟩, ⟨2⟩, none⟩ l =
      .error (.unplacedLabel ⟨2⟩ m.name) l := by
    rw [hlinked]
    exact ExceptionEntry.bytes_of_unplaced (by decide) (by decide) (by decide) l
  unfold Method.codeBytes
  rw [bind_of_ok hlink]
  dsimp only
  rw [if_neg hsize, bind_of_ok hcode, hm]
  apply bind_of_error
  rw [List.mapM_cons]
  exact bind_of_error hrow _

end SmalltalkJvm
