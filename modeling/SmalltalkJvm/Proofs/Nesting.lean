import SmalltalkJvm.Proofs.Exactness

/-! # Exception tables are properly nested

The entries of a method come in the order in which its regions are closed. So of two entries the
earlier one protects code that is apart from that of the later one or lies in it, and the entries of
a construct that catches answers come behind those of the constructs inside it.
-/

namespace SmalltalkJvm

open Compile

def markPlace (code : List Instruction) (label : Label) : Nat := code.idxOf (.mark label)

theorem markPlace_append {code : List Instruction} {label : Label} (h : .mark label ∉ code)
    (rest : List Instruction) : markPlace (code ++ .mark label :: rest) label = code.length := by
  simp [markPlace, List.idxOf_append_of_notMem h]

theorem markPlace_of_append {code code' : List Instruction} (h : code <+: code') {label : Label}
    (hlt : markPlace code label < code.length) : markPlace code' label = markPlace code label := by
  obtain ⟨rest, rfl⟩ := h
  exact List.idxOf_append_of_mem (List.idxOf_lt_length_iff.1 hlt)

namespace ExceptionEntry

/-- The labels of an entry stand in order in a stretch of the code. -/
structure Within (code : List Instruction) (low high : Nat) (e : ExceptionEntry) : Prop where
  low : low ≤ markPlace code e.start
  range : markPlace code e.start < markPlace code e.stop
  handler : markPlace code e.stop < markPlace code e.handler
  high : markPlace code e.handler < high

/-- How an entry stands to a later one: they have the same range, or the earlier entry stands before
the range of the later one, or it stands in that range. -/
def Before (code : List Instruction) (e f : ExceptionEntry) : Prop :=
  (e.start = f.start ∧ e.stop = f.stop) ∨ markPlace code e.handler < markPlace code f.start ∨
    (markPlace code f.start < markPlace code e.start ∧
      markPlace code e.handler < markPlace code f.stop)

variable {code code' : List Instruction} {low high : Nat} {e f : ExceptionEntry}

/-- What comes behind the code does not move the labels. -/
theorem Within.places_eq (h : e.Within code low code.length) (hcode : code <+: code') :
    markPlace code' e.start = markPlace code e.start ∧
      markPlace code' e.stop = markPlace code e.stop ∧
      markPlace code' e.handler = markPlace code e.handler := by
  have hrange := h.range
  have hhandler := h.handler
  have hhigh := h.high
  exact ⟨markPlace_of_append hcode (by omega), markPlace_of_append hcode (by omega),
    markPlace_of_append hcode hhigh⟩

theorem Within.mono (h : e.Within code low code.length) (hcode : code <+: code') :
    e.Within code' low code'.length := by
  obtain ⟨hstart, hstop, hhandler⟩ := h.places_eq hcode
  refine ⟨?_, ?_, ?_, ?_⟩ <;> simp only [hstart, hstop, hhandler]
  · exact h.low
  · exact h.range
  · exact h.handler
  · exact h.high.trans_le hcode.length_le

theorem Before.mono (h : e.Before code f) (he : e.Within code low code.length)
    (hf : f.Within code low code.length) (hcode : code <+: code') : e.Before code' f := by
  obtain ⟨hstart, hstop, hhandler⟩ := he.places_eq hcode
  obtain ⟨hstart', hstop', hhandler'⟩ := hf.places_eq hcode
  simp only [Before, hstart, hhandler, hstart', hstop']
  exact h

end ExceptionEntry

namespace Draft

def Nests (d d' : Draft) : Prop :=
  ∃ entries, d'.handlers.toList = d.handlers.toList ++ entries ∧
    (∀ e ∈ entries, e.Within d'.code.toList d.code.size d'.code.toList.length) ∧
    entries.Pairwise (ExceptionEntry.Before d'.code.toList)

theorem Nests.nil {d d' : Draft} (h : d'.handlers = d.handlers) : d.Nests d' :=
  ⟨[], by simp [h], by simp, .nil⟩

theorem Nests.trans {d d₁ d' : Draft} (h₁ : d.Nests d₁) (h₂ : d₁.Nests d')
    (hfirst : d.code.toList <+: d₁.code.toList) (hsecond : d₁.code.toList <+: d'.code.toList) :
    d.Nests d' := by
  obtain ⟨entries₁, hentries₁, hwithin₁, hpairs₁⟩ := h₁
  obtain ⟨entries₂, hentries₂, hwithin₂, hpairs₂⟩ := h₂
  have hsize : d.code.size ≤ d₁.code.size := by simpa using hfirst.length_le
  refine ⟨entries₁ ++ entries₂, by rw [hentries₂, hentries₁, List.append_assoc], ?_, ?_⟩
  · intro e he
    rcases List.mem_append.1 he with he | he
    · exact (hwithin₁ e he).mono hsecond
    · have hwithin := hwithin₂ e he
      exact ⟨hsize.trans hwithin.low, hwithin.range, hwithin.handler, hwithin.high⟩
  · refine List.pairwise_append.2 ⟨hpairs₁.imp_of_mem fun he hf hbefore =>
      hbefore.mono (hwithin₁ _ he) (hwithin₁ _ hf) hsecond, hpairs₂, fun e he f hf => ?_⟩
    -- The labels of the first part stand before those of the second.
    refine .inr (.inl ?_)
    have hhigh := (hwithin₁ e he).high
    rw [((hwithin₁ e he).places_eq hsecond).2.2]
    exact hhigh.trans_le (by simpa using (hwithin₂ f hf).low)

theorem runOperations_nests {d : Draft} {operations : List Operation}
    (hf : (d.runOperations operations).fault = none) : d.Nests (d.runOperations operations) :=
  .nil (handlers_runOperations hf)

variable {env : Env}

/-- The places of a region's own entries. -/
theorem Closes.places {start : Label} {span : Span} {markers : List String} {d d' : Draft}
    (h : Closes env start span markers d d') (hw : d.WellMarked) {x : Label × String}
    (hx : x ∈ handlerLabels (d.labels.size + 2) markers) :
    markPlace d'.code.toList ⟨d.labels.size⟩ = d.code.size ∧
      d.code.size < markPlace d'.code.toList x.1 ∧
      markPlace d'.code.toList x.1 < d'.code.toList.length := by
  constructor
  · have hfresh : .mark ⟨d.labels.size⟩ ∉ d.code.toList := fun hmem =>
      Nat.lt_irrefl _ (hw.below _ hmem)
    rw [h.code, markPlace_append hfresh, Array.length_toList]
  · obtain ⟨prior, rest, hcode, hfresh, hprior⟩ := h.split_handler env hw hx
    have hplace : markPlace d'.code.toList x.1 = prior.length := by
      rw [hcode]
      exact markPlace_append hfresh _
    refine ⟨by rwa [hplace], ?_⟩
    rw [hplace, hcode]
    simp [handlerCode]

/-- The end of a region: what was protected in the region stands in its range. -/
theorem Closes.nests {span : Span} {markers : List String} {d d₁ d' : Draft}
    (h : Closes env d.nextLabel span markers d₁ d') (hw : d.WellMarked) (hw₁ : d₁.WellMarked)
    (hopen : d.openRegion.code.toList <+: d₁.code.toList) (hbody : d.openRegion.Nests d₁) :
    d.Nests d' := by
  obtain ⟨entries, hentries, hwithin, hpairs⟩ := hbody
  have hcode := h.extends.code
  have hstart : markPlace d'.code.toList d.nextLabel = d.code.size := by
    have hfresh : .mark d.nextLabel ∉ d.code.toList := fun hmem =>
      Nat.lt_irrefl _ (hw.below _ hmem)
    obtain ⟨rest, hrest⟩ := hopen.trans hcode
    rw [← hrest, openRegion_eq, Array.toList_push, List.append_assoc, List.singleton_append,
      markPlace_append hfresh, Array.length_toList]
  have hsize : d.code.size < d₁.code.size := by
    have := hopen.length_le
    rw [openRegion_eq] at this
    simp only [Array.length_toList, Array.size_push] at this
    omega
  have hown : ∀ e ∈ regionEntries d.nextLabel ⟨d₁.labels.size⟩
      (handlerLabels (d₁.labels.size + 2) markers), e.start = d.nextLabel ∧
        e.stop = ⟨d₁.labels.size⟩ ∧ markPlace d'.code.toList e.stop = d₁.code.size ∧
        d₁.code.size < markPlace d'.code.toList e.handler ∧
        markPlace d'.code.toList e.handler < d'.code.toList.length := by
    intro e he
    obtain ⟨x, hx, rfl⟩ := List.mem_map.1 he
    exact ⟨rfl, rfl, h.places hw₁ hx⟩
  refine ⟨entries ++ regionEntries d.nextLabel ⟨d₁.labels.size⟩
    (handlerLabels (d₁.labels.size + 2) markers), ?_, ?_, ?_⟩
  · rw [h.entries, hentries, openRegion_eq, List.append_assoc]
  · intro e he
    rcases List.mem_append.1 he with he | he
    · have hmoved := (hwithin e he).mono hcode
      have hlow := hmoved.low
      rw [openRegion_eq, Array.size_push] at hlow
      exact ⟨by omega, hmoved.range, hmoved.handler, hmoved.high⟩
    · obtain ⟨hlabel, -, hstop, hhandler, hhigh⟩ := hown e he
      rw [← hlabel] at hstart
      exact ⟨hstart.ge, by omega, by omega, hhigh⟩
  · refine List.pairwise_append.2 ⟨hpairs.imp_of_mem fun he hf hbefore =>
      hbefore.mono (hwithin _ he) (hwithin _ hf) hcode, ?_, fun e he f hf => ?_⟩
    · refine List.Pairwise.imp_of_mem (R := fun _ _ => True) (fun he hf _ => ?_)
        (List.pairwise_of_forall fun _ _ => trivial)
      exact .inl ⟨(hown _ he).1.trans (hown _ hf).1.symm,
        (hown _ he).2.1.trans (hown _ hf).2.1.symm⟩
    · obtain ⟨hlabel, -, hstop, -, -⟩ := hown f hf
      have hlow := ((hwithin e he).mono hcode).low
      have hhigh := (hwithin e he).high
      rw [openRegion_eq, Array.size_push] at hlow
      rw [Array.length_toList, ← ((hwithin e he).places_eq hcode).2.2] at hhigh
      rw [← hlabel] at hstart
      exact .inr (.inr ⟨by omega, by omega⟩)

end Draft

namespace Code

open Draft

variable {env : Env}

/-- Running code adds entries that are nested. -/
theorem run_nests {c : Code} {d : Draft} (hw : d.WellMarked) (hf : (c.run env d).fault = none) :
    d.Nests (c.run env d) := by
  induction c generalizing d with
  | operations ops => exact runOperations_nests hf
  | append first second ihFirst ihSecond =>
    have hfirst : (first.run env d).fault = none := fault_run env hf
    have hbuilds := run_builds env hfirst
    exact (ihFirst hw hfirst).trans (ihSecond (hbuilds.wellMarked hw) hf) hbuilds.code
      (run_builds (c := second) (d := first.run env d) env hf).code
  | marker name => exact Nests.nil rfl
  | region span body ih =>
    have hfine := fault_closeRegion env hf
    have hopened := openRegion_builds d
    have hbuilds := run_builds env hfine
    have hbody := ih (hopened.wellMarked hw) hfine
    by_cases hm : body.markers = []
    · simp only [run, Draft.closeRegion, hm, ↓reduceIte]
      exact (Nests.nil (by rw [openRegion_eq])).trans hbody hopened.code hbuilds.code
    · exact (closeRegion_closes env d.nextLabel span hm hf).nests hw
        (hbuilds.wellMarked (hopened.wellMarked hw)) hbuilds.code hbody
  | statement isLast body ih =>
    have hbody := Draft.fault_run hf
    exact (ih hw hbody).trans (runOperations_nests hf) (run_builds env hbody).code
      (runOperations_builds hf).code

def regions : Code → List Code
  | operations _ | marker _ => []
  | append first second => first.regions ++ second.regions
  | region _ body => body :: body.regions
  | statement _ body => body.regions

theorem sizeOf_lt_of_mem_regions {c body : Code} (h : body ∈ c.regions) :
    sizeOf body < sizeOf c := by
  induction c with
  | operations | marker => cases h
  | append first second ihFirst ihSecond =>
    rw [append.sizeOf_spec]
    rcases List.mem_append.1 h with h | h
    · have := ihFirst h
      omega
    · have := ihSecond h
      omega
  | region span inner ih =>
    rw [region.sizeOf_spec]
    rcases List.mem_cons.1 h with rfl | h
    · omega
    · have := ih h
      omega
  | statement isLast inner ih =>
    rw [statement.sizeOf_spec]
    have := ih h
    omega

theorem regions_subset {c body : Code} (h : body ∈ c.regions) : body.regions ⊆ c.regions := by
  induction c with
  | operations | marker => cases h
  | append first second ihFirst ihSecond =>
    rcases List.mem_append.1 h with h | h
    · exact List.subset_append_of_subset_left _ (ihFirst h)
    · exact List.subset_append_of_subset_right _ (ihSecond h)
  | region span inner ih =>
    rcases List.mem_cons.1 h with rfl | h
    · exact List.subset_cons_self _ _
    · exact List.subset_cons_of_subset _ (ih h)
  | statement isLast inner ih => exact ih h

/-- Code catches the markers of its regions. -/
theorem caught_of_mem_regions {c body : Code} (h : body ∈ c.regions) {marker : String}
    (hm : marker ∈ body.markers) : marker ∈ c.guards.map Prod.fst := by
  induction c with
  | operations | marker => cases h
  | append first second ihFirst ihSecond =>
    rw [guards, List.map_append, List.mem_append]
    exact (List.mem_append.1 h).imp ihFirst ihSecond
  | region span inner ih =>
    rw [guards, List.map_append, List.mem_append]
    rcases List.mem_cons.1 h with rfl | h
    · exact .inr (by simpa using hm)
    · exact .inl (ih h)
  | statement isLast inner ih => exact ih h

/-- A guard is a marker of a region. -/
theorem region_of_mem_guards {c : Code} {x : String × Code} (h : x ∈ c.guards) :
    x.2 ∈ c.regions ∧ x.1 ∈ x.2.markers := by
  induction c with
  | operations | marker => cases h
  | append first second ihFirst ihSecond =>
    rcases List.mem_append.1 h with h | h
    · exact ⟨List.mem_append_left _ (ihFirst h).1, (ihFirst h).2⟩
    · exact ⟨List.mem_append_right _ (ihSecond h).1, (ihSecond h).2⟩
  | region span inner ih =>
    rcases List.mem_append.1 h with h | h
    · exact ⟨List.mem_cons_of_mem _ (ih h).1, (ih h).2⟩
    · obtain ⟨marker, hm, rfl⟩ := List.mem_map.1 h
      exact ⟨List.mem_cons_self, hm⟩
  | statement isLast inner ih => exact ih h

/-- If all markers differ, a region is closed behind the regions inside it. -/
theorem guards_innermost {c : Code} (h : (c.guards.map Prod.fst).Nodup) :
    c.guards.Pairwise fun x y => y.2 ∉ x.2.regions := by
  induction c with
  | operations | marker => exact .nil
  | append first second ihFirst ihSecond =>
    rw [guards, List.map_append, List.nodup_append] at h
    refine List.pairwise_append.2 ⟨ihFirst h.1, ihSecond h.2.1, fun x hx y hy hmem => ?_⟩
    -- The marker of the second region would be caught in the first part too.
    have hregion := regions_subset (region_of_mem_guards hx).1 hmem
    exact h.2.2 y.1 (caught_of_mem_regions hregion (region_of_mem_guards hy).2) y.1
      (List.mem_map_of_mem hy) rfl
  | region span body ih =>
    rw [guards, List.map_append, List.nodup_append] at h
    have hself : body ∉ body.regions := fun hmem => Nat.lt_irrefl _ (sizeOf_lt_of_mem_regions hmem)
    refine List.pairwise_append.2 ⟨ih h.1, ?_, fun x hx y hy hmem => ?_⟩
    · exact List.pairwise_map.2 (List.pairwise_of_forall fun _ _ => hself)
    · obtain ⟨marker, -, rfl⟩ := List.mem_map.1 hy
      exact Nat.lt_asymm (sizeOf_lt_of_mem_regions hmem)
        (sizeOf_lt_of_mem_regions (region_of_mem_guards hx).1)
  | statement isLast body ih => exact ih h

end Code

section

variable (env : Env) (resolve : String → Resolution)

mutual

/-- The keyword messages of an expression that are sent in the method of the expression, as
catchers, if some blocks come before it. -/
def Expr.catchers (k : Nat) : Expr → List Catcher
  | .literal .. | .pseudo .. | .reference .. | .primitive .. | .block .. => []
  | .send target m _ =>
    (match m with
      | .keyword parts span => [.send k target parts span]
      | _ => []) ++
      (target.catchers k ++
        m.catchers (target.asReceiver env resolve) (k + (target.blocks env).length))
  | .cascade target messages _ =>
    target.catchers k ++ messageCatchers target (k + (target.blocks env).length) messages
  | .assign _ value _ => value.catchers k
  | .paren inner _ => inner.catchers k

/-- A directive sends nothing. -/
def Message.catchers (r : Receiver) (k : Nat) : Message → List Catcher
  | .unary _ => []
  | .binary _ argument _ => argument.catchers k
  | .keyword parts _ => if r = .escape then [] else argumentCatchers k parts

def messageCatchers (target : Expr) (k : Nat) : List Message → List Catcher
  | [] => []
  | m :: rest =>
    (match m with
      | .keyword parts span =>
        if target.asReceiver env resolve = .escape then [] else [.cascaded k target parts span]
      | _ => []) ++
      (m.catchers (target.asReceiver env resolve) k ++
        messageCatchers target (k + (m.blocks env).length) rest)

def argumentCatchers (k : Nat) : List KeywordPart → List Catcher
  | [] => []
  | ⟨_, argument⟩ :: rest =>
    match argument with
    | .block _ body _ => argumentCatchers (k + ((body.blocks env).length + 1)) rest
    | other => other.catchers k ++ argumentCatchers (k + (other.blocks env).length) rest

end

/-- The keyword messages inside a construct that catches answers, without the construct itself. -/
def Catcher.inner : Catcher → List Catcher
  | .send before target parts span =>
    target.catchers env resolve before ++
      (Message.keyword parts span).catchers env resolve (target.asReceiver env resolve)
        (before + (target.blocks env).length)
  | .cascaded before target parts span =>
    (Message.keyword parts span).catchers env resolve (target.asReceiver env resolve) before
  | .expression before value | .answer before value _ => value.catchers env resolve before

variable (names : Nat → String) {env resolve}

mutual

/-- The code of each keyword message of an expression is that of a region. -/
theorem Expr.catchers_regions (e : Expr) (k : Nat) {c : Catcher}
    (h : c ∈ e.catchers env resolve k) :
    c.code env resolve names ∈ (e.plan env resolve names k).regions := by
  cases e with
  | literal | pseudo | reference | primitive | block => cases h
  | send target m span =>
    have hinside : c ∈ target.catchers env resolve k ++ m.catchers env resolve
        (target.asReceiver env resolve) (k + (target.blocks env).length) →
        c.code env resolve names ∈ (target.plan env resolve names k).regions ++
          (m.plan env resolve (target.asReceiver env resolve) names
            (k + (target.blocks env).length)).regions := fun h =>
      List.mem_append.2 ((List.mem_append.1 h).imp (target.catchers_regions k)
        (m.catchers_regions _ _))
    cases m with
    | unary | binary => exact hinside h
    | keyword parts keywords =>
      rcases List.mem_cons.1 h with rfl | h
      · exact List.mem_cons_self
      · exact List.mem_cons_of_mem _ (hinside h)
  | cascade target messages span =>
    exact List.mem_append.2 ((List.mem_append.1 h).imp (target.catchers_regions k)
      (messageCatchers_regions target messages _))
  | assign target value span => exact List.mem_append_left _ (value.catchers_regions k h)
  | paren inner span => exact inner.catchers_regions k h

theorem Message.catchers_regions (m : Message) (r : Receiver) (k : Nat) {c : Catcher}
    (h : c ∈ m.catchers env resolve r k) :
    c.code env resolve names ∈ (m.plan env resolve r names k).regions := by
  cases m with
  | unary => cases h
  | binary selector argument span =>
    exact List.mem_append_left _ (argument.catchers_regions k h)
  | keyword parts span =>
    rw [Message.catchers] at h
    rw [Message.plan]
    split_ifs at h ⊢
    · cases h
    · exact List.mem_append_left _ (argumentCatchers_regions parts k h)

theorem messageCatchers_regions (target : Expr) (messages : List Message) (k : Nat) {c : Catcher}
    (h : c ∈ messageCatchers env resolve target k messages) :
    c.code env resolve names ∈
      (cascadePlan env resolve (target.asReceiver env resolve) messages names k).regions := by
  cases messages with
  | nil => cases h
  | cons m rest =>
    have hmessage := m.catchers_regions (target.asReceiver env resolve) k (c := c)
    have hrest := messageCatchers_regions target rest (k + (m.blocks env).length) (c := c)
    have hboth (h : c ∈ m.catchers env resolve (target.asReceiver env resolve) k ++
        messageCatchers env resolve target (k + (m.blocks env).length) rest) :=
      List.mem_append.2 ((List.mem_append.1 h).imp hmessage hrest)
    rw [cascadePlan]
    split_ifs with hr
    · cases m with
      | unary | binary => exact hboth h
      | keyword parts span =>
        rw [messageCatchers, if_pos hr] at h
        exact hboth h
    all_goals
      cases m with
      | unary | binary => exact hboth h
      | keyword parts span =>
        rw [messageCatchers, if_neg hr] at h
        rcases List.mem_cons.1 h with rfl | h
        · exact List.mem_cons_self
        · exact List.mem_cons_of_mem _ (hboth h)

theorem argumentCatchers_regions (parts : List KeywordPart) (k : Nat) {c : Catcher}
    (h : c ∈ argumentCatchers env resolve k parts) :
    c.code env resolve names ∈ (argumentsPlan env resolve parts names k).regions := by
  cases parts with
  | nil => cases h
  | cons part rest =>
    obtain ⟨keyword, argument⟩ := part
    have hargument := argument.catchers_regions k (c := c)
    cases argument with
    | block parameters body span =>
      exact List.mem_append_right _ (argumentCatchers_regions rest _ h)
    | _ =>
      exact List.mem_append.2 ((List.mem_append.1 h).imp hargument
        (argumentCatchers_regions rest _))

end

/-- What stands inside a catcher has a region inside the catcher's code. -/
theorem Catcher.inner_regions {c inner : Catcher} (h : inner ∈ c.inner env resolve) :
    inner.code env resolve names ∈ (c.code env resolve names).regions := by
  cases c with
  | send before target parts span =>
    exact List.mem_append.2 ((List.mem_append.1 h).imp (target.catchers_regions names before)
      (Message.catchers_regions names _ _ _))
  | cascaded before target parts span => exact Message.catchers_regions names _ _ _ h
  | expression before value => exact value.catchers_regions names before h
  | answer before value span =>
    exact List.mem_append_right _ (List.mem_append_left _ (value.catchers_regions names before h))

end

theorem markPlace_of_count {code before after : List Instruction} {label : Label}
    (hcount : code.count (.mark label) ≤ 1) (hcode : code = before ++ .mark label :: after) :
    markPlace code label = before.length := by
  have hfresh : .mark label ∉ before := by
    rw [hcode, List.count_append, List.count_cons_self] at hcount
    exact List.count_eq_zero.1 (by omega)
  rw [hcode, markPlace_append hfresh]

section

variable {R : Operand → Nat → Prop} {code : List Instruction} {linked : List Linked}

variable (h : List.Forall₂ (Instruction.LinksTo R) code linked)

include h

/-- The offset of a label is the size of the code before the place where it is marked. -/
theorem offset_eq_of_count {method : String} {label : Label} {pc : Nat}
    (hcount : code.count (.mark label) ≤ 1)
    (hpc : (Layout.ofList linked).offset method label = .ok pc) :
    pc = codeSize (linked.take (markPlace code label)) := by
  obtain ⟨before, after, rfl, -, rfl⟩ := Layout.offset_ok hpc
  obtain ⟨first, rest, hfirst, hrest, rfl⟩ : ∃ first rest,
      List.Forall₂ (Instruction.LinksTo R) first before ∧
        List.Forall₂ (Instruction.LinksTo R) rest (.mark label :: after) ∧
          code = first ++ rest := by
    exact ⟨_, _, List.forall₂_take_append _ _ _ h, List.forall₂_drop_append _ _ _ h,
      (List.take_append_drop _ _).symm⟩
  obtain ⟨i, rest, hmark, -, rfl⟩ := List.forall₂_cons_right_iff.1 hrest
  rw [markPlace_of_count hcount (by rw [hmark.eq_mark]), hfirst.length_eq, List.take_left]

/-- Code between two places takes at least its least size. -/
theorem codeSize_take_add_le {i j : Nat} (hij : i ≤ j) :
    codeSize (linked.take i) + leastSize ((code.take j).drop i) ≤ codeSize (linked.take j) := by
  have hsplit : linked.take j = linked.take i ++ (linked.take j).drop i := by
    conv_lhs => rw [← List.take_append_drop i (linked.take j)]
    rw [List.take_take, Nat.min_eq_left hij]
  have hbetween := Instruction.leastSize_le_codeSize (List.forall₂_drop i (List.forall₂_take j h))
  rw [hsplit, codeSize_append]
  omega

end

/-- The entries of a body are nested, and there is code in every range and every handler. -/
structure MethodBody.Nested (b : MethodBody) : Prop where
  within : ∀ e ∈ b.handlers, e.Within b.instructions 0 b.instructions.length
  order : b.handlers.Pairwise (ExceptionEntry.Before b.instructions)
  ranges : ∀ e ∈ b.handlers, 0 < leastSize ((b.instructions.take
    (markPlace b.instructions e.stop)).drop (markPlace b.instructions e.start))
  handlers : ∀ e ∈ b.handlers, 0 < leastSize (b.instructions.drop
    (markPlace b.instructions e.handler))

/-- How a row of an exception table stands to a later one: the ranges are apart, or that of the
earlier one lies in that of the later one. -/
def ExceptionRow.Before (r q : ExceptionRow) : Prop :=
  r.stop ≤ q.start ∨ q.stop ≤ r.start ∨ (q.start ≤ r.start ∧ r.stop ≤ q.stop)

structure CodeSummary.Nested (s : CodeSummary) : Prop where
  rows : ∀ r ∈ s.exceptions, r.start < r.stop ∧ r.stop ≤ r.handler ∧ r.handler < s.code.length
  order : s.exceptions.Pairwise ExceptionRow.Before

theorem pairwise_of_forall₂ {α β : Type} {R : α → α → Prop} {S : β → β → Prop} {Q : α → β → Prop}
    {xs : List α} {ys : List β} (h : xs.Pairwise R) (hall : List.Forall₂ Q xs ys)
    (himp : ∀ x x' y y', R x x' → Q x y → Q x' y' → S y y') : ys.Pairwise S := by
  induction hall with
  | nil => exact .nil
  | cons hxy hrest ih =>
    obtain ⟨hx, hxs⟩ := List.pairwise_cons.1 h
    refine List.pairwise_cons.2 ⟨fun y' hy' => ?_, ih hxs⟩
    obtain ⟨x', hx', hxy'⟩ := exists_of_mem_right hrest hy'
    exact himp _ _ _ _ (hx x' hx') hxy hxy'

/-- Nested entries are written as a nested table. -/
theorem MethodBody.Nested.read {b : MethodBody} (hb : b.Nested) {name : String}
    {R : Operand → Nat → Prop} {linked : List Linked} {s : CodeSummary}
    (hcount : ∀ label, b.instructions.count (.mark label) ≤ 1)
    (hlinks : List.Forall₂ (Instruction.LinksTo R) b.instructions linked)
    (hread : b.IsReadAs name (Layout.ofList linked) s) : s.Nested := by
  have hoffset {label : Label} {pc : Nat}
      (hpc : (Layout.ofList linked).offset name label = .ok pc) :
      pc = codeSize (linked.take (markPlace b.instructions label)) :=
    offset_eq_of_count hlinks (hcount label) hpc
  have hle {i j : Nat} (hij : i ≤ j) : codeSize (linked.take i) ≤ codeSize (linked.take j) :=
    (Nat.le_add_right _ _).trans (codeSize_take_add_le hlinks hij)
  constructor
  · intro r hr
    obtain ⟨e, he, hrow⟩ := exists_of_mem_right hread.exceptions hr
    have hwithin := hb.within e he
    rw [hoffset hrow.start, hoffset hrow.stop, hoffset hrow.handler,
      Layout.length_code hread.code]
    refine ⟨?_, hle hwithin.handler.le, ?_⟩
    · have := codeSize_take_add_le hlinks hwithin.range.le
      have := hb.ranges e he
      omega
    · have hrest := codeSize_take_add_le hlinks hwithin.high.le
      rw [List.take_length, hlinks.length_eq, List.take_length] at hrest
      have := hb.handlers e he
      omega
  · have horder : b.handlers.Pairwise fun e f => e.Before b.instructions f ∧
        e.Within b.instructions 0 b.instructions.length :=
      hb.order.imp_of_mem fun he _ h => ⟨h, hb.within _ he⟩
    refine pairwise_of_forall₂ horder hread.exceptions fun e f r q hef hr hq => ?_
    obtain ⟨hbefore, hwithin⟩ := hef
    rw [ExceptionRow.Before, hoffset hr.start, hoffset hr.stop, hoffset hq.start, hoffset hq.stop]
    rcases hbefore with ⟨hstart, hstop⟩ | hahead | ⟨hstart, hstop⟩
    · rw [hstart, hstop]
      exact .inr (.inr ⟨Nat.le_refl _, Nat.le_refl _⟩)
    · exact .inl (hle (hwithin.handler.trans hahead).le)
    · exact .inr (.inr ⟨hle hstart.le, hle (hwithin.handler.trans hstop).le⟩)

section

variable (env : Env) (resolve : String → Resolution) (names : Nat → String)

/-- Markers are caught in an order of their blocks in which no construct comes before one inside
it. -/
def InnermostFirst (sites : List Site) (caught : List (Option String)) : Prop :=
  ∃ order : List Site, order.Perm (sites.filter (·.literal.escapes)) ∧
    caught = order.map (fun s => some (s.marker env names)) ∧
    order.Pairwise fun s t => t.catcher ∉ s.catcher.inner env resolve

variable {env resolve names}

theorem siteGuards_fst (sites : List Site) : (siteGuards env resolve names sites).map Prod.fst =
    markersOf env names (sites.map Site.entry) := by
  rw [siteGuards, markersOf, List.filter_map, List.map_map, List.map_map]
  rfl

theorem Sequence.innermostFirst {s : Sequence} {parameters : List Ident}
    (h : s.Checked env parameters) {whenEmpty : List Operation} {k : Nat}
    {locals : List VerificationType} {b : MethodBody}
    (hfinish : ((s.plan env parameters whenEmpty names k).run env (env.method locals)).finish =
      .ok b) (hnodup : (markersOf env names ((s.sites env k).map Site.entry)).Nodup) :
    InnermostFirst env (lookup parameters s.temporaries) names (s.sites env k)
      (b.handlers.map ExceptionEntry.catches) := by
  have hfinishes := Draft.finishes_of_finish hfinish
  have hperm := s.plan_guards names h whenEmpty k
  obtain ⟨entries, hentries, hall⟩ := s.plan_wires h rfl hfinishes.fault
  obtain ⟨order, hguards, horder⟩ := (congrFun₂ (List.eq_map_comp_perm _) _ _).mpr hperm
  have hinnermost := Code.guards_innermost ((hperm.map Prod.fst).nodup_iff.2
    (by rwa [siteGuards_fst]))
  refine ⟨order, horder, ?_, ?_⟩
  · have hhandlers : b.handlers = entries := by
      rw [hfinishes.handlers, hentries]
      rfl
    rw [hguards, ← hhandlers, List.forall₂_map_right_iff] at hall
    rw [← List.forall₂_eq_eq_eq, List.forall₂_map_left_iff, List.forall₂_map_right_iff]
    exact hall.imp fun e site hguard => hguard.catches
  · rw [hguards, List.pairwise_map] at hinnermost
    exact hinnermost.imp fun hout hinner => hout (Catcher.inner_regions names hinner)

/-- The range of an entry creates a block, and its handler returns. -/
theorem ExceptionEntry.Returns.leastSize_pos {b : MethodBody} {e : ExceptionEntry} {s : Site}
    (h : e.Returns env resolve names b s)
    (hcount : ∀ label, b.instructions.count (.mark label) ≤ 1) :
    0 < leastSize ((b.instructions.take (markPlace b.instructions e.stop)).drop
      (markPlace b.instructions e.start)) ∧
    0 < leastSize (b.instructions.drop (markPlace b.instructions e.handler)) := by
  constructor
  · obtain ⟨before, inner, after, hcode, -, ⟨first, last, hinner⟩, -⟩ := h.range
    have hwhole : b.instructions = (before ++ .mark e.start :: inner) ++ .mark e.stop :: after := by
      rw [hcode]
      simp
    rw [markPlace_of_count (hcount _) hcode, markPlace_of_count (hcount _) hwhole, hwhole,
      List.take_left, List.drop_left, ← hinner]
    simp only [leastSize_cons, leastSize_append, Site.created, Instruction.leastSize]
    omega
  · obtain ⟨before, lines, after, hcode, -⟩ := h.handler
    rw [markPlace_of_count (hcount _) hcode, hcode, List.drop_left]
    simp only [leastSize_cons, leastSize_append, Instruction.leastSize]
    omega

theorem MethodBody.Nested.of_run {c : Code} {locals : List VerificationType} {b : MethodBody}
    {sites : List Site} (hfinish : (c.run env (env.method locals)).finish = .ok b)
    (hahead : LabelsAhead b.instructions) (hwired : b.Wired env resolve names sites) :
    b.Nested := by
  have hfinishes := Draft.finishes_of_finish hfinish
  have hmarked : (env.method locals).WellMarked := Draft.wellMarked_method ..
  obtain ⟨entries, hentries, hwithin, horder⟩ := Code.run_nests hmarked hfinishes.fault
  have hhandlers : b.handlers = entries := by
    rw [hfinishes.handlers, hentries]
    rfl
  rw [← hfinishes.instructions, ← hhandlers] at hwithin horder
  obtain ⟨order, -, hreturns⟩ := hwired
  refine ⟨hwithin, horder, fun e he => ?_, fun e he => ?_⟩ <;>
    obtain ⟨s, -, hs⟩ := exists_of_mem_left hreturns he
  · exact (hs.leastSize_pos hahead.count_mark_le).1
  · exact (hs.leastSize_pos hahead.count_mark_le).2

end

section

variable {env : Env} {script : Script} {g : Generated} {u : CompiledUnit} {fixed : List Method}

variable (env script g) in
/-- A method that was generated, with what names resolve to in it and the blocks that it creates. -/
inductive Compile.Generated.Contains : Method → (String → Resolution) → List Site → Prop where
  | script : Contains g.sendMessages (lookup [] script.body.temporaries) (script.body.sites env 0)
  | block {i : Nat} {literal : BlockLiteral} {method : Method}
      (hl : (script.body.blocks env)[i]? = some literal) (hm : g.blocks[i]? = some method) :
      Contains method (lookup literal.parameters literal.body.temporaries)
        (literal.body.sites env (i - (literal.body.blocks env).length))

theorem exists_contains (hg : generate env script = .ok g) {m : Method}
    (hm : m ∈ g.sendMessages :: g.blocks) :
    ∃ resolve sites, g.Contains env script m resolve sites := by
  rcases List.mem_cons.1 hm with rfl | hm
  · exact ⟨_, _, .script⟩
  · obtain ⟨i, hi⟩ := List.mem_iff_getElem?.1 hm
    have hlt := (List.getElem?_eq_some_iff.1 hi).1
    rw [(generate_outlined env hg).blocks.length_eq] at hlt
    exact ⟨_, _, .block (List.getElem?_eq_getElem hlt) hi⟩

/-- Each block is created in one place of one method only. -/
theorem Compile.Generated.Contains.nodup_markers (hg : generate env script = .ok g) {m : Method}
    {resolve : String → Resolution} {sites : List Site}
    (h : g.Contains env script m resolve sites) :
    (markersOf env g.names (sites.map Site.entry)).Nodup := by
  have hnodup := (generate_outlined env hg).markersOf_nodup.of_map
  rw [← (markersOf_perm (script.body.covers env 0)).nodup_iff, markersOf_append] at hnodup
  cases h with
  | script => exact hnodup.of_append_left
  | @block i literal _ hl hm =>
    refine hnodup.of_append_right.sublist ?_
    have hmem : (literal, i) ∈ (script.body.blocks env).zipIdx := List.mem_zipIdx_iff_getElem?.2 hl
    have hsublist : List.Sublist
        ((literal.body.sites env (i - (literal.body.blocks env).length)).map Site.entry)
        (innerEntries env 0 (script.body.blocks env)) := by
      rw [innerEntries, List.flatMap_def]
      exact List.sublist_flatten_of_mem (List.mem_map_of_mem hmem)
    exact (hsublist.filter _).map _

/-- The code that the body of a generated method is finished from. -/
theorem Compile.Generated.Contains.exists_code (hg : generate env script = .ok g) {m : Method}
    {resolve : String → Resolution} {sites : List Site}
    (h : g.Contains env script m resolve sites) :
    (∃ c locals, (Code.run env c (env.method locals)).finish = .ok m.body) ∧
      m.body.Wired env resolve g.names sites ∧
      InnermostFirst env resolve g.names sites (m.body.handlers.map ExceptionEntry.catches) := by
  have houtlined := generate_outlined env hg
  have hnodup := h.nodup_markers hg
  cases h with
  | script =>
    exact ⟨⟨_, _, houtlined.body⟩, script_wired hg,
      Sequence.innermostFirst (generate_checked env hg) houtlined.body hnodup⟩
  | @block i literal _ hl hm =>
    have hcompiled := houtlined.compiled hl hm
    have hchecked := generate_checked_blocks env hg literal
      (List.mem_of_getElem? hl)
    exact ⟨⟨_, _, hcompiled.body⟩, hcompiled.wired hchecked,
      Sequence.innermostFirst hchecked hcompiled.body hnodup⟩

theorem MethodBody.Nested.of_handlers {b : MethodBody} (h : b.handlers = []) : b.Nested :=
  ⟨by simp [h], by simp [h], by simp [h], by simp [h]⟩

/-- The methods of a unit have nested entries, and their labels stand at one place. -/
theorem CompiledUnit.Consists.nested (h : u.Consists env script g fixed) {c : CompiledClass}
    (hc : c ∈ u.classes) {m : Method} (hm : m ∈ c.file.methods) :
    m.body.Nested ∧ LabelsAhead m.body.instructions := by
  rcases h.method_cases hc hm with ⟨name, span, hmarker⟩ | ⟨rfl, hcase⟩
  · obtain ⟨hverified, hnone⟩ := markerClass_verified hmarker hm
    exact ⟨.of_handlers hnone, hverified.ahead⟩
  · refine ⟨?_, h.ahead hm⟩
    rcases hcase with hfixed | hgenerated
    · exact .of_handlers (fixedMethods_verified h.prepares h.name hfixed).2
    · obtain ⟨resolve, sites, hcontains⟩ := exists_contains h.generates hgenerated
      obtain ⟨⟨code, locals, hfinish⟩, hwired, -⟩ := hcontains.exists_code h.generates
      exact .of_run hfinish (h.ahead hm) hwired

end

/-- In every class of a compiled unit the exception tables are properly nested, and in the methods
of the script the entries of a construct come behind those of the keyword messages inside it. -/
theorem compileUnit_nests_handlers {settings : Settings} {unit : UnitName} {script : Script}
    {u : CompiledUnit} (h : compileUnit settings unit script = .ok u) :
    ∃ g fixed, u.Consists ⟨settings, unit⟩ script g fixed ∧
      ∀ c ∈ u.classes, ∃ s, Summary.parse c.bytes = .ok s ∧
        List.Forall₂ (fun (m : Method) (r : MethodSummary) => ∃ code, r.code = some code ∧
          code.Nested ∧ ∀ resolve sites, g.Contains ⟨settings, unit⟩ script m resolve sites →
            InnermostFirst ⟨settings, unit⟩ resolve g.names sites
              (code.exceptions.map ExceptionRow.catches)) c.file.methods s.methods := by
  obtain ⟨g, fixed, hu⟩ := compileUnit_consists h
  refine ⟨g, fixed, hu, fun c hc => ?_⟩
  obtain ⟨p, l, -, hbytes, hl, ha⟩ := exists_assembled h hc
  obtain ⟨s, hs, hread⟩ := ha.exists_summary hl (moderate_of_compileUnit h hc)
  rw [hbytes]
  refine ⟨s, hs, ((List.forall₂_and_left _ _).2
    ⟨fun m hm => hu.nested hc hm, hread.methods⟩).imp ?_⟩
  rintro m r ⟨⟨hnested, hahead⟩, hmethod⟩
  obtain ⟨code, linked, hcode, hlinks, hbody⟩ := hmethod.code
  refine ⟨code, hcode, hnested.read hahead.count_mark_le hlinks hbody,
    fun resolve sites hcontains => ?_⟩
  have hcatches : code.exceptions.map ExceptionRow.catches =
      m.body.handlers.map ExceptionEntry.catches := by
    rw [← List.forall₂_eq_eq_eq, List.forall₂_map_left_iff, List.forall₂_map_right_iff]
    exact hbody.exceptions.flip.imp fun row e hrow => hrow.catches
  rw [hcatches]
  exact (hcontains.exists_code hu.generates).2.2

theorem nested_of_sample : ∃ u, compileUnit {} Sample.unit Sample.script = .ok u ∧
    ∃ g fixed, u.Consists Sample.env Sample.script g fixed ∧
      g.sendMessages.body.handlers.length = 2 ∧
      ∀ c ∈ u.classes, ∃ s, Summary.parse c.bytes = .ok s ∧
        List.Forall₂ (fun (m : Method) (r : MethodSummary) => ∃ code, r.code = some code ∧
          code.Nested ∧ ∀ resolve sites, g.Contains Sample.env Sample.script m resolve sites →
            InnermostFirst Sample.env resolve g.names sites
              (code.exceptions.map ExceptionRow.catches)) c.file.methods s.methods := by
  obtain ⟨u, hu⟩ := Sample.compiles
  obtain ⟨g, fixed, hconsists, hclasses⟩ := compileUnit_nests_handlers hu
  exact ⟨u, hu, g, fixed, hconsists, (Sample.generated hconsists.generates).2.2, hclasses⟩

end SmalltalkJvm
