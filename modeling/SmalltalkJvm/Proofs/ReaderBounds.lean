import SmalltalkJvm.Proofs.Truncation

/-! # Readers stay inside their input

On any bytes at all, a reader of class files moves forward inside the bytes that it was given, which
for the parts of an attribute are those of its body. Where it fails, the position that it reports is
inside them, and the numbers that it reports fit the fields that they were read from.

Texts are decoded the same by looking up bytes at their positions: no position is outside.
-/

namespace SmalltalkJvm

namespace ModifiedUtf8

/-- The units of some bytes from a position on, or nothing if a byte is looked up outside. -/
def unitsAt? (bytes : List UInt8) (i : Nat) : Option (List Nat) :=
  if i < bytes.length then do
    let b ← bytes[i]?
    if b < 0x80 then
      let us ← unitsAt? bytes (i + 1)
      return b.toNat :: us
    else if leadsTwo b ∧ i + 1 < bytes.length then
      let c ← bytes[i + 1]?
      let us ← unitsAt? bytes (i + 2)
      return unitOfTwo b c :: us
    else if i + 2 < bytes.length then
      let c ← bytes[i + 1]?
      let d ← bytes[i + 2]?
      let us ← unitsAt? bytes (i + 3)
      return unitOfThree b c d :: us
    else
      let us ← unitsAt? bytes (i + 1)
      return replacement :: us
  else return []
termination_by bytes.length - i

/-- A lead byte without enough bytes after it. -/
theorem unitsOfBytes_cut {b : UInt8} {rest : List UInt8} (h : ¬b < 0x80)
    (htwo : ¬(leadsTwo b = true ∧ rest ≠ [])) (hthree : rest.length < 2) :
    unitsOfBytes (b :: rest) = replacement :: unitsOfBytes rest := by
  rcases rest with _ | ⟨c, _ | ⟨d, rest⟩⟩
  · simp [unitsOfBytes, h]
  · have hlead : leadsTwo b = false := by simpa using htwo
    simp [unitsOfBytes, h, hlead]
  · rw [List.length_cons, List.length_cons] at hthree
    omega

/-- No byte is looked up outside, and the units are those of the bytes as they are read. -/
theorem unitsAt?_eq (bytes : List UInt8) (i : Nat) :
    unitsAt? bytes i = some (unitsOfBytes (bytes.drop i)) := by
  induction hn : bytes.length - i using Nat.strong_induction_on generalizing i with
  | _ n ih =>
    rw [unitsAt?]
    by_cases hi : i < bytes.length
    · have hdrop {k : Nat} (hk : k < bytes.length) :
          bytes.drop k = bytes[k] :: bytes.drop (k + 1) := List.drop_eq_getElem_cons hk
      have hlength := List.length_drop (i := i + 1) (l := bytes)
      rw [if_pos hi, List.getElem?_eq_getElem hi, hdrop hi]
      simp only [Option.bind_eq_bind, Option.bind_some]
      split_ifs with hone htwo hthree
      · rw [ih _ (by omega) (i + 1) rfl, unitsOfBytes_one hone]
        rfl
      · obtain ⟨hlead, hlt⟩ := htwo
        rw [ih _ (by omega) (i + 2) rfl, List.getElem?_eq_getElem hlt, hdrop hlt,
          unitsOfBytes_two hone hlead]
        rfl
      · have hlt : i + 1 < bytes.length := by omega
        have hlead : leadsTwo bytes[i] = false := by
          simpa [hlt] using htwo
        rw [ih _ (by omega) (i + 3) rfl, List.getElem?_eq_getElem hlt,
          List.getElem?_eq_getElem hthree, hdrop hlt, hdrop hthree,
          unitsOfBytes_three hone hlead]
        rfl
      · have hshort : (bytes.drop (i + 1)).length < 2 := by omega
        rw [ih _ (by omega) (i + 1) rfl, unitsOfBytes_cut hone ?_ hshort]
        · rfl
        · rintro ⟨hlead, hne⟩
          refine htwo ⟨hlead, ?_⟩
          have hpos := List.length_pos_iff.2 hne
          omega
    · rw [if_neg hi, List.drop_eq_nil_of_le (by omega), unitsOfBytes]
      rfl

theorem lt_of_mem_unitsOfBytes {bytes : List UInt8} {u : Nat} (h : u ∈ unitsOfBytes bytes) :
    u < 65536 := by
  have htwo (b c : UInt8) : unitOfTwo b c < 65536 := by
    unfold unitOfTwo
    omega
  have hthree (b c d : UInt8) : unitOfThree b c d < 65536 := by
    unfold unitOfThree
    omega
  have hone (b : UInt8) : b.toNat < 65536 := Nat.lt_trans b.toNat_lt (by decide)
  have hreplacement : replacement < 65536 := by decide
  fun_induction unitsOfBytes bytes <;> grind

end ModifiedUtf8

/-- A fault's position is inside some bytes, and its numbers fit the fields they are read from. -/
def FormatFault.InRange (size : Nat) : FormatFault → Prop
  | truncated position => position ≤ size
  | badMagic found => found < 4294967296
  | unknownTag tag index => tag < 256 ∧ index < 65536
  | badConstant index => index < 65536
  | unknownOpcode .. => False

theorem FormatFault.InRange.mono {fault : FormatFault} {size size' : Nat} (h : fault.InRange size)
    (hle : size ≤ size') : fault.InRange size' := by
  cases fault with
  | truncated position => exact Nat.le_trans h hle
  | _ => exact h

def PoolEntry.InRange : PoolEntry → Prop
  | classRef name => name < 65536
  | string text => text < 65536
  | _ => True

def PoolTable.InRange (pool : PoolTable) : Prop := ∀ entry ∈ pool, entry.InRange

theorem PoolTable.InRange.append {pool : PoolTable} (hpool : pool.InRange)
    {entries : List PoolEntry} (hentries : ∀ entry ∈ entries, entry.InRange) :
    InRange (pool ++ entries) := by
  intro entry hmem
  rw [← Array.mem_toList_iff, Array.toList_appendList, List.mem_append,
    Array.mem_toList_iff] at hmem
  exact hmem.elim (hpool entry) (hentries entry)

theorem PoolTable.utf8_fault {pool : PoolTable} {index : Nat} {fault : FormatFault}
    (h : pool.utf8 index = .error fault) : fault = .badConstant index := by
  unfold utf8 at h
  split at h
  · cases h
  · cases h
    rfl

theorem PoolTable.utf8_inRange {pool : PoolTable} {index : Nat} (hindex : index < 65536)
    {size : Nat} {fault : FormatFault} (h : pool.utf8 index = .error fault) :
    fault.InRange size := by
  rw [utf8_fault h]
  exact hindex

theorem PoolTable.InRange.className {pool : PoolTable} (hpool : pool.InRange) {index : Nat}
    (hindex : index < 65536) {size : Nat} {fault : FormatFault}
    (h : pool.className index = .error fault) : fault.InRange size := by
  unfold PoolTable.className at h
  split at h
  · rename_i name hname
    exact utf8_inRange (hpool _ (Array.mem_of_getElem? hname)) h
  · cases h
    exact hindex

namespace Reader

variable {α β : Type} {size : Nat}

/-- A reader that has come to an end inside an input of a size, with a value of some kind or with a
fault that belongs there. -/
inductive StaysIn (size : Nat) (P : α → Prop) : Except FormatFault (α × Cursor) → Prop
  | ok {a : α} {c : Cursor} : P a → c.position + c.rest.length = size → StaysIn size P (.ok (a, c))
  | error {fault : FormatFault} : fault.InRange size → StaysIn size P (.error fault)

/-- A reader stays inside an input of a size, whatever the bytes. -/
def Safe (size : Nat) (r : Reader α) (P : α → Prop) : Prop :=
  ∀ c, c.position + c.rest.length = size → StaysIn size P (r c)

theorem StaysIn.bind {r : Reader α} {f : α → Reader β} {P : α → Prop} {Q : β → Prop} {c : Cursor}
    (hr : StaysIn size P (r c))
    (hf : ∀ a c', r c = .ok (a, c') → P a → c'.position + c'.rest.length = size →
      StaysIn size Q (f a c')) : StaysIn size Q ((r >>= f) c) := by
  cases hread : r c with
  | error fault =>
    rw [hread] at hr
    cases hr with
    | error hfault => exact bind_of_error hread ▸ .error hfault
  | ok read =>
    rw [hread] at hr
    cases hr with
    | ok ha hc' => exact bind_of_ok hread ▸ hf _ _ hread ha hc'

theorem Safe.bind {r : Reader α} {f : α → Reader β} {P : α → Prop} {Q : β → Prop}
    (hr : r.Safe size P) (hf : ∀ a, P a → (f a).Safe size Q) : (r >>= f).Safe size Q :=
  fun c hc => (hr c hc).bind fun a c' _ ha hc' => hf a ha c' hc'

theorem Safe.of_ok {r : Reader α} {P : α → Prop} {c c' : Cursor} {a : α}
    (hr : r.Safe (c.position + c.rest.length) P) (h : r c = .ok (a, c')) : P a := by
  have hstays := hr c rfl
  rw [h] at hstays
  cases hstays with
  | ok ha _ => exact ha

theorem safe_pure {a : α} {P : α → Prop} (ha : P a) : Safe size (pure a) P :=
  fun _ hc => .ok ha hc

theorem safe_throw {fault : FormatFault} (h : fault.InRange size) (P : α → Prop) :
    Safe size (throw fault : Reader α) P :=
  fun _ _ => .error h

theorem Safe.imp {r : Reader α} {P Q : α → Prop} (hr : r.Safe size P) (hPQ : ∀ a, P a → Q a) :
    r.Safe size Q := by
  rw [← bind_pure r]
  exact hr.bind fun a ha => safe_pure (hPQ a ha)

theorem Safe.map {r : Reader α} {P : α → Prop} {Q : β → Prop} (hr : r.Safe size P) {f : α → β}
    (hf : ∀ a, P a → Q (f a)) : (f <$> r).Safe size Q := by
  rw [map_eq_pure_bind]
  exact hr.bind fun a ha => safe_pure (hf a ha)

/-- What is known already touches no input. -/
theorem safe_known {x : Except FormatFault α} {P : α → Prop} (hok : ∀ a, x = .ok a → P a)
    (herror : ∀ fault, x = .error fault → fault.InRange size) :
    Safe size (liftM x : Reader α) P := by
  cases x with
  | error fault => exact safe_throw (herror fault rfl) P
  | ok a => exact safe_pure (hok a rfl)

/-- The bytes taken are inside the input; if there are too few, so is the place where they start. -/
theorem safe_take (n : Nat) : Safe size (take n) fun bytes => bytes.length = n ∧ n ≤ size := by
  intro c hc
  simp only [take]
  split_ifs with hfull
  · rw [List.length_take] at hfull
    refine .ok ?_ ?_
    · rw [List.length_take]
      omega
    · simp only [List.length_drop]
      omega
  · exact .error (hc ▸ Nat.le_add_right _ _)

theorem ofBytes_lt (bytes : List UInt8) : Word.ofBytes bytes < 256 ^ bytes.length := by
  have hfold (n : Nat) :
      bytes.foldl (fun n b => n * 256 + b.toNat) n < (n + 1) * 256 ^ bytes.length := by
    induction bytes generalizing n with
    | nil => simp
    | cons b bytes ih =>
      have hb := b.toNat_lt
      rw [List.foldl_cons, List.length_cons, Nat.pow_succ']
      refine (ih _).trans_le ?_
      rw [← Nat.mul_assoc]
      exact Nat.mul_le_mul_right _ (by omega)
  simpa [Word.ofBytes] using hfold 0

theorem safe_word (n : Nat) :
    Safe size (do return Word.ofBytes (← take n) : Reader Nat) fun value => value < 256 ^ n :=
  (safe_take n).bind fun bytes hbytes => safe_pure (by rw [← hbytes.1]; exact ofBytes_lt bytes)

theorem safe_u8 : Safe size u8 (· < 256) := safe_word 1

theorem safe_u16 : Safe size u16 (· < 65536) := safe_word 2

theorem safe_u32 : Safe size u32 (· < 4294967296) := safe_word 4

theorem safe_skip (n : Nat) : Safe size (skip n) fun _ => True :=
  (safe_take n).bind fun _ _ => safe_pure trivial

/-- A body is no longer than the input that it is part of. -/
theorem safe_block : Safe size block fun body => body.length ≤ size :=
  safe_u32.bind fun n _ => (safe_take n).imp fun _ h => h.1 ▸ h.2

theorem Safe.counted {r : Reader α} {P : α → Prop} (hr : r.Safe size P) :
    (counted r).Safe size fun found => ∀ a ∈ found, P a := by
  have hgo (n : Nat) (found : List α) (hfound : ∀ a ∈ found, P a) :
      (times.go r found n).Safe size fun found => ∀ a ∈ found, P a := by
    induction n generalizing found with
    | zero => exact safe_pure fun a ha => hfound a (List.mem_reverse.1 ha)
    | succ n ih => exact hr.bind fun a ha => ih (a :: found) (List.forall_mem_cons.2 ⟨ha, hfound⟩)
  exact safe_u16.bind fun n _ => hgo n [] (List.forall_mem_nil P)

theorem within_stays {bytes : List UInt8} {r : Reader α} {P : α → Prop}
    (hr : r.Safe bytes.length P) : (∀ a, within bytes r = .ok a → P a) ∧
      ∀ fault, within bytes r = .error fault → fault.InRange bytes.length := by
  have hstays := hr ⟨bytes, 0⟩ (Nat.zero_add _)
  rw [within]
  generalize r ⟨bytes, 0⟩ = outcome at hstays
  cases hstays with
  | ok ha _ =>
    refine ⟨fun a h => ?_, fun fault h => ?_⟩
    · cases h
      exact ha
    · cases h
  | error hfault =>
    refine ⟨fun a h => ?_, fun fault h => ?_⟩
    · cases h
    · cases h
      exact hfault

/-- What fails inside a body fails inside the input. -/
theorem safe_within {body : List UInt8} {r : Reader α} {P : α → Prop}
    (hr : r.Safe body.length P) (hbody : body.length ≤ size) :
    Safe size (liftM (within body r) : Reader α) P :=
  safe_known (within_stays hr).1 fun fault h => ((within_stays hr).2 fault h).mono hbody

theorem safe_poolPayload (index : UInt16) {tag : Nat} (htag : tag < 256) :
    Safe size (poolPayload index tag) fun entries => ∀ entry ∈ entries, entry.InRange := by
  have hunknown : (FormatFault.unknownTag tag index.toNat).InRange size := ⟨htag, index.toNat_lt⟩
  unfold poolPayload
  split
  · exact safe_u16.bind fun n _ => (safe_take n).bind fun _ _ =>
      safe_pure (by simp [PoolEntry.InRange])
  · exact safe_u16.bind fun n hn => safe_pure (by simpa [PoolEntry.InRange] using hn)
  · exact safe_u16.bind fun n hn => safe_pure (by simpa [PoolEntry.InRange] using hn)
  all_goals first
    | exact (safe_skip _).bind fun _ _ => safe_pure (by simp [PoolEntry.InRange])
    | exact safe_throw hunknown _

theorem safe_poolEntry (index : UInt16) :
    Safe size (poolEntry index) fun entries => ∀ entry ∈ entries, entry.InRange :=
  safe_u8.bind fun _ htag => safe_poolPayload index htag

theorem safe_poolEntries (count index : UInt16) {table : PoolTable} (htable : table.InRange) :
    Safe size (poolEntries count index table) PoolTable.InRange := by
  intro c
  induction c using Cursor.rest_induction generalizing index table with
  | step c ih =>
    intro hc
    by_cases hlt : index < count
    · rw [poolEntries_of_lt hlt]
      refine (safe_poolEntry index c hc).bind fun entries c' hread hentries hc' => ?_
      have hless : c'.rest.length < c.rest.length := advances_poolEntry index c entries c' hread
      exact ih c' hless _ (htable.append hentries) hc'
    · rw [poolEntries_of_not_lt hlt]
      exact safe_pure htable c hc

theorem safe_poolTable : Safe size poolTable PoolTable.InRange :=
  safe_u16.bind fun _ _ => safe_poolEntries _ _ (by simp [PoolTable.InRange, PoolEntry.InRange])

end Reader

def ExceptionRow.InRange (row : ExceptionRow) : Prop :=
  row.start < 65536 ∧ row.stop < 65536 ∧ row.handler < 65536

structure CodeSummary.InRange (c : CodeSummary) : Prop where
  maxStack : c.maxStack < 65536
  maxLocals : c.maxLocals < 65536
  exceptions : ∀ row ∈ c.exceptions, row.InRange
  lines : ∀ line ∈ c.lines, line.1 < 65536 ∧ line.2 < 65536
  frames : c.frames < 65536

def MethodSummary.InRange (m : MethodSummary) : Prop :=
  m.access < 65536 ∧ ∀ c, m.code = some c → c.InRange

structure Summary.InRange (s : Summary) : Prop where
  major : s.major < 65536
  access : s.access < 65536
  methods : ∀ m ∈ s.methods, m.InRange
  bootstrapMethods : s.bootstrapMethods < 65536

namespace Reader

/-- The latest value is one of the values. -/
theorem mem_of_latest {values : List (Option α)} {a : α} (h : latest values = some a) :
    some a ∈ values := by
  have hfold (rest : List (Option α)) (found : Option α)
      (h : rest.foldl (fun found value => value <|> found) found = some a) :
      some a ∈ rest ∨ found = some a := by
    induction rest generalizing found with
    | nil => exact .inr h
    | cons value rest ih => cases value <;> grind
  exact (hfold values none h).resolve_right (by simp)

theorem latest_getD_lt {values : List (Option Nat)}
    (h : ∀ n, some n ∈ values → n < 65536) : (latest values).getD 0 < 65536 := by
  cases hlatest : latest values with
  | none => exact Nat.zero_lt_succ _
  | some n => exact h n (mem_of_latest hlatest)

theorem safe_lineRow : Safe size lineRow fun line => line.1 < 65536 ∧ line.2 < 65536 :=
  safe_u16.bind fun _ hstart => safe_u16.bind fun _ hline => safe_pure ⟨hstart, hline⟩

theorem safe_skipField : Safe size skipField fun _ => True :=
  have hattribute : Safe size skipAttribute fun _ => True :=
    (safe_skip 2).bind fun _ _ => safe_block.bind fun _ _ => safe_pure trivial
  (safe_skip 6).bind fun _ _ => hattribute.counted.bind fun _ _ => safe_pure trivial

variable {pool : PoolTable}

theorem safe_utf8 {index : Nat} (hindex : index < 65536) :
    Safe size (liftM (pool.utf8 index) : Reader String) fun _ => True :=
  safe_known (fun _ _ => trivial) fun _ h => PoolTable.utf8_inRange hindex h

theorem safe_namedBlock : Safe size (namedBlock pool) fun named => named.2.length ≤ size :=
  safe_u16.bind fun _ hindex => (safe_utf8 hindex).bind fun _ _ => safe_block.bind fun _ hbody =>
    safe_pure hbody

theorem safe_className (hpool : pool.InRange) {index : Nat} (hindex : index < 65536) :
    Safe size (liftM (pool.className index) : Reader String) fun _ => True :=
  safe_known (fun _ _ => trivial) fun _ h => hpool.className hindex h

theorem safe_exceptionRow (hpool : pool.InRange) :
    Safe size (exceptionRow pool) ExceptionRow.InRange := by
  refine safe_u16.bind fun start hstart => safe_u16.bind fun stop hstop =>
    safe_u16.bind fun handler hhandler => safe_u16.bind fun caught hcaught => ?_
  have hrow (catches : Option String) :
      Safe size (pure ⟨start, stop, handler, catches⟩) ExceptionRow.InRange :=
    safe_pure ⟨hstart, hstop, hhandler⟩
  split_ifs
  · exact hrow none
  · exact (Safe.map (Q := fun _ => True) (safe_className hpool hcaught) fun _ _ => trivial).bind
      fun catches _ => hrow catches

/-- What an attribute adds to the summary of code fits its fields. -/
theorem safe_codeAttribute : Safe size (codeAttribute pool) fun part =>
    (∀ line ∈ part.2.1, line.1 < 65536 ∧ line.2 < 65536) ∧ ∀ n, part.2.2 = some n → n < 65536 := by
  refine safe_namedBlock.bind ?_
  rintro ⟨name, body⟩ hbody
  dsimp only
  split_ifs
  · refine (safe_within safe_lineRow.counted hbody).bind fun lines hlines => safe_pure ?_
    exact ⟨hlines, by simp⟩
  · refine (safe_within safe_u16 hbody).bind fun frames hframes => safe_pure ?_
    simpa using hframes
  · exact safe_pure (by simp)

theorem safe_code (hpool : pool.InRange) : Safe size (code pool) CodeSummary.InRange := by
  refine safe_u16.bind fun maxStack hstack => safe_u16.bind fun maxLocals hlocals =>
    safe_block.bind fun code _ => (safe_exceptionRow hpool).counted.bind fun rows hrows =>
      safe_codeAttribute.counted.bind fun parts hparts => safe_pure ?_
  refine ⟨hstack, hlocals, hrows, fun line hline => ?_, latest_getD_lt fun n hn => ?_⟩
  · obtain ⟨part, hmem, hline⟩ := List.mem_flatMap.1 hline
    exact (hparts part hmem).1 line hline
  · obtain ⟨part, hmem, hn⟩ := List.mem_map.1 hn
    exact (hparts part hmem).2 n hn

theorem safe_methodAttribute (hpool : pool.InRange) : Safe size (methodAttribute pool) fun part =>
    ∀ c, part = some c → c.InRange := by
  refine safe_namedBlock.bind ?_
  rintro ⟨name, body⟩ hbody
  dsimp only
  split_ifs
  · exact (safe_within (safe_code hpool) hbody).map fun c hc c' h => Option.some.inj h ▸ hc
  · exact safe_pure (by simp)

theorem safe_method (hpool : pool.InRange) : Safe size (method pool) MethodSummary.InRange := by
  refine safe_u16.bind fun access haccess => safe_u16.bind fun _ hname =>
    (safe_utf8 hname).bind fun _ _ => safe_u16.bind fun _ hdescriptor =>
      (safe_utf8 hdescriptor).bind fun _ _ => (safe_methodAttribute hpool).counted.bind
        fun parts hparts => safe_pure ⟨haccess, fun c hc => ?_⟩
  exact hparts (some c) (mem_of_latest hc) c rfl

/-- The first two bytes of a body are inside it. -/
theorem safe_classAttribute : Safe size (classAttribute pool) fun part =>
    ∀ n, part.2.2 = some n → n < 65536 := by
  refine safe_namedBlock.bind ?_
  rintro ⟨name, body⟩ -
  have hword : Word.ofBytes (body.take 2) < 65536 :=
    (ofBytes_lt _).trans_le (Nat.pow_le_pow_right (by decide) (List.length_take_le 2 body))
  dsimp only
  split_ifs
  · exact (safe_utf8 hword).bind fun _ _ => safe_pure (by simp)
  · exact safe_pure (by simpa using hword)
  · exact safe_pure (by simp)

theorem safe_summary : Safe size summary Summary.InRange := by
  refine safe_u32.bind fun magic hmagic => ?_
  have hfault : (FormatFault.badMagic magic).InRange size := hmagic
  split_ifs
  · exact safe_throw hfault _
  refine (safe_skip 2).bind fun _ _ => safe_u16.bind fun major hmajor =>
    safe_poolTable.bind fun pool hpool => safe_u16.bind fun access haccess =>
      safe_u16.bind fun _ hname => (safe_className hpool hname).bind fun _ _ =>
        safe_u16.bind fun _ hsuper => (safe_className hpool hsuper).bind fun _ _ => ?_
  refine safe_u16.bind fun _ _ => (safe_skip _).bind fun _ _ =>
    safe_skipField.counted.bind fun _ _ => (safe_method hpool).counted.bind fun methods hmethods =>
      safe_classAttribute.counted.bind fun parts hparts => safe_pure ?_
  refine ⟨hmajor, haccess, hmethods, latest_getD_lt fun n hn => ?_⟩
  obtain ⟨part, hmem, hn⟩ := List.mem_map.1 hn
  exact hparts part hmem n hn

end Reader

end SmalltalkJvm
