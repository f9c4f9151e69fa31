import SmalltalkJvm.Proofs.ReaderBounds

/-! # The index of the constant pool

The constants of a pool are numbered with 16 bits. Counted without a limit, the number of a constant
is how many entries are in the table before it. The two agree unless the pool is declared to have
65535 entries and a constant of eight bytes, which takes two, stands at 65534: then the table has
65536 entries, the index is 0 again and the constants are read from there once more.

On any bytes at all, a summary is read inside the input and has numbers that fit.
-/

namespace SmalltalkJvm

theorem PoolTable.size_append (pool : PoolTable) (entries : List PoolEntry) :
    (pool ++ entries).size = pool.size + entries.length := by
  rw [← Array.length_toList, Array.toList_appendList, List.length_append, Array.length_toList]

namespace Reader

/-- Constants up to a count, each at the place that comes next in the table. -/
def unlimitedEntries (count : Nat) (table : PoolTable) (c : Cursor) :
    Except FormatFault (PoolTable × Cursor) :=
  if table.size < count then
    match found : poolEntry table.size.toUInt16 c with
    | .error fault => .error fault
    | .ok (entries, c') =>
      have := advances_poolEntry table.size.toUInt16 c entries c' found
      unlimitedEntries count (table ++ entries) c'
  else .ok (table, c)
termination_by c.rest.length

def unlimitedTable : Reader PoolTable := do
  let count ← u16
  unlimitedEntries count #[.unusable]

variable {α β : Type} {count : Nat} {table : PoolTable}

theorem unlimitedEntries_of_lt (h : table.size < count) :
    unlimitedEntries count table = (poolEntry table.size.toUInt16 >>= fun entries =>
      unlimitedEntries count (table ++ entries) : Reader PoolTable) := by
  funext c
  rw [unlimitedEntries, if_pos h]
  split
  · rename_i fault hfault
    rw [bind_of_error hfault]
  · rename_i entries c' hentry
    rw [bind_of_ok hentry]

theorem unlimitedEntries_of_not_lt (h : ¬table.size < count) :
    unlimitedEntries count table = (pure table : Reader PoolTable) := by
  funext c
  rw [unlimitedEntries, if_neg h]
  rfl

theorem of_andReturn {r : Reader α} {f : α → β} {n : Nat} (hr : r.Advances n) {c c' : Cursor}
    {b : β} (h : (r >>= fun a => pure (f a)) c = .ok (b, c')) :
    ∃ a, b = f a ∧ c'.rest.length + n ≤ c.rest.length := by
  obtain ⟨a, c₁, hread, hpure⟩ := of_bind_ok h
  cases hpure
  exact ⟨a, rfl, hr _ _ _ hread⟩

/-- A constant takes one place in the table or, if it has eight bytes, two. For each it has at least
three bytes. -/
theorem poolEntry_places {index : UInt16} {c c' : Cursor} {entries : List PoolEntry}
    (h : poolEntry index c = .ok (entries, c')) :
    (entries.length = 1 ∨ entries = [.other, .unusable]) ∧
      c'.rest.length + 3 * entries.length ≤ c.rest.length := by
  obtain ⟨tag, c₁, htag, hpayload⟩ := of_bind_ok h
  have hfirst := advances_u8 _ _ _ htag
  unfold poolPayload at hpayload
  split at hpayload
  · obtain ⟨n, c₂, hn, htext⟩ := of_bind_ok hpayload
    have hsecond := advances_u16 _ _ _ hn
    obtain ⟨text, rfl, hthird⟩ := of_andReturn (advances_take n) htext
    exact ⟨.inl rfl, by rw [List.length_singleton]; omega⟩
  · obtain ⟨n, rfl, hsecond⟩ := of_andReturn advances_u16 hpayload
    exact ⟨.inl rfl, by rw [List.length_singleton]; omega⟩
  · obtain ⟨n, rfl, hsecond⟩ := of_andReturn advances_u16 hpayload
    exact ⟨.inl rfl, by rw [List.length_singleton]; omega⟩
  all_goals first
    | cases hpayload
    | obtain ⟨-, rfl, hsecond⟩ := of_andReturn (advances_skip _) hpayload
      simp only [List.length_cons, List.length_nil, true_or, or_true, true_and]
      omega

/-- The loop over the constants ends: each place in the table has cost three bytes. -/
theorem poolEntries_size_le {count index : UInt16} {c c' : Cursor} {full : PoolTable}
    (h : poolEntries count index table c = .ok (full, c')) :
    c'.rest.length + 3 * full.size ≤ c.rest.length + 3 * table.size := by
  induction c using Cursor.rest_induction generalizing index table with
  | step c ih =>
    by_cases hlt : index < count
    · rw [poolEntries_of_lt hlt] at h
      obtain ⟨entries, c₁, hentry, hrest⟩ := of_bind_ok h
      have hless : c₁.rest.length < c.rest.length := advances_poolEntry index c entries c₁ hentry
      have hplaces := (poolEntry_places hentry).2
      have hsize := ih c₁ hless hrest
      rw [PoolTable.size_append] at hsize
      omega
    · rw [poolEntries_of_not_lt hlt] at h
      cases h
      omega

theorem toUInt16_lt_iff {n : Nat} (hn : n < 65536) (count : UInt16) :
    n.toUInt16 < count ↔ n < count.toNat := by
  rw [UInt16.lt_iff_toNat_lt, Nat.toUInt16_eq, UInt16.toNat_ofNat_of_lt' hn]

/-- Reading with 16 bits is reading without a limit and then going on at the index that is left of
the number of entries. -/
theorem poolEntries_eq_unlimited (count : UInt16) (table : PoolTable) :
    poolEntries count table.size.toUInt16 table =
      (unlimitedEntries count.toNat table >>= fun full =>
        poolEntries count full.size.toUInt16 full : Reader PoolTable) := by
  funext c
  induction c using Cursor.rest_induction generalizing table with
  | step c ih =>
    by_cases hlt : table.size < count.toNat
    · have hindex : table.size.toUInt16 < count :=
        (toUInt16_lt_iff (hlt.trans count.toNat_lt) count).2 hlt
      rw [poolEntries_of_lt hindex, unlimitedEntries_of_lt hlt, bind_assoc]
      cases hentry : poolEntry table.size.toUInt16 c with
      | error fault => rw [bind_of_error hentry, bind_of_error hentry]
      | ok read =>
        have hless : read.2.rest.length < c.rest.length := advances_poolEntry _ c _ _ hentry
        rw [bind_of_ok hentry, bind_of_ok hentry, ← ih read.2 hless (table ++ read.1)]
        rw [PoolTable.size_append, Nat.toUInt16_eq, Nat.toUInt16_eq, Nat.toUInt16_eq,
          UInt16.ofNat_add]
    · rw [unlimitedEntries_of_not_lt hlt, pure_bind]

/-- A pool has as many entries as its count says, or one more behind a constant of eight bytes. -/
theorem unlimitedEntries_size {c c' : Cursor} {full : PoolTable}
    (h : unlimitedEntries count table c = .ok (full, c')) (hsize : table.size ≤ count) :
    full.size = count ∨ ∃ before : PoolTable, before.size + 1 = count ∧
      full = before ++ [PoolEntry.other, PoolEntry.unusable] := by
  induction c using Cursor.rest_induction generalizing table with
  | step c ih =>
    by_cases hlt : table.size < count
    · rw [unlimitedEntries_of_lt hlt] at h
      obtain ⟨entries, c₁, hentry, hrest⟩ := of_bind_ok h
      have hless : c₁.rest.length < c.rest.length := advances_poolEntry _ c entries c₁ hentry
      by_cases hmore : (table ++ entries).size ≤ count
      · exact ih c₁ hless hrest hmore
      · rw [PoolTable.size_append] at hmore
        rcases (poolEntry_places hentry).1 with hone | rfl
        · omega
        · rw [unlimitedEntries_of_not_lt (by rw [PoolTable.size_append]; omega)] at hrest
          cases hrest
          exact .inr ⟨table, by simp only [List.length_cons, List.length_nil] at hmore; omega, rfl⟩
    · rw [unlimitedEntries_of_not_lt hlt] at h
      cases h
      exact .inl (by omega)

theorem le_size_of_unlimitedEntries {c c' : Cursor} {full : PoolTable}
    (h : unlimitedEntries count #[.unusable] c = .ok (full, c')) : count ≤ full.size := by
  by_cases hone : 1 ≤ count
  · rcases unlimitedEntries_size h hone with hsize | ⟨before, hbefore, rfl⟩
    · exact hsize.ge
    · rw [PoolTable.size_append, List.length_cons]
      omega
  · omega

/-- The table is too large for the index only if it is declared as large as can be and a constant
of eight bytes is at its end. -/
theorem of_overfull {c c' : Cursor} {full : PoolTable}
    (h : unlimitedEntries count #[.unusable] c = .ok (full, c')) (hcount : count < 65536)
    (hfull : 65535 < full.size) : count = 65535 ∧ full.size = 65536 ∧
      ∃ before : PoolTable, full = before ++ [PoolEntry.other, PoolEntry.unusable] := by
  by_cases hone : 1 ≤ count
  · rcases unlimitedEntries_size h hone with hsize | ⟨before, hbefore, rfl⟩
    · omega
    · rw [PoolTable.size_append, List.length_cons, List.length_singleton] at hfull ⊢
      exact ⟨by omega, by omega, before, rfl⟩
  · rw [unlimitedEntries_of_not_lt (Nat.not_lt.2 (Nat.lt_of_not_le hone).le)] at h
    cases h
    exact absurd hfull (by decide)

/-- Reading the table with 16 bits goes on where reading it without a limit ends. -/
theorem poolTable_of_count {c c₁ : Cursor} (hcount : u16 c = .ok (count, c₁)) :
    poolTable c = (unlimitedEntries count #[.unusable] >>= fun full =>
      poolEntries count.toUInt16 full.size.toUInt16 full : Reader PoolTable) c₁ := by
  have hnat : count.toUInt16.toNat = count := by
    rw [Nat.toUInt16_eq, UInt16.toNat_ofNat_of_lt' (safe_u16.of_ok hcount)]
  have heq := poolEntries_eq_unlimited count.toUInt16 #[.unusable]
  rw [hnat] at heq
  rw [poolTable, bind_of_ok hcount]
  exact congrFun heq c₁

/-- If there is another constant to read, reading moves on. -/
theorem poolEntries_ne_of_lt {count index : UInt16} (h : index < count) (table full : PoolTable)
    (c : Cursor) : poolEntries count index table c ≠ .ok (full, c) := by
  intro hread
  rw [poolEntries_of_lt h] at hread
  obtain ⟨entries, c₁, hentry, hrest⟩ := of_bind_ok hread
  obtain ⟨bytes, hbytes, -⟩ := exact_poolEntries _ _ _ _ _ _ hrest
  have hless := advances_poolEntry index c entries c₁ hentry
  rw [hbytes, List.length_append] at hless
  omega

theorem poolTable_of_size_le {c : Cursor}
    (h : ∀ table c', unlimitedTable c = .ok (table, c') → table.size ≤ 65535) :
    poolTable c = unlimitedTable c := by
  cases hcount : u16 c with
  | error fault => rw [poolTable, unlimitedTable, bind_of_error hcount, bind_of_error hcount]
  | ok read =>
    rw [unlimitedTable, bind_of_ok hcount] at h ⊢
    rw [poolTable_of_count hcount]
    cases hentries : unlimitedEntries read.1 #[.unusable] read.2 with
    | error fault => rw [bind_of_error hentries]
    | ok full =>
      have hstop : ¬full.1.size.toUInt16 < read.1.toUInt16 := by
        have hsize := h full.1 full.2 hentries
        rw [toUInt16_lt_iff (by omega), Nat.toUInt16_eq,
          UInt16.toNat_ofNat_of_lt' (safe_u16.of_ok hcount)]
        exact Nat.not_lt.2 (le_size_of_unlimitedEntries hentries)
      rw [bind_of_ok hentries, poolEntries_of_not_lt hstop]
      rfl

theorem poolTable_of_overfull {c c' : Cursor} {full : PoolTable}
    (h : unlimitedTable c = .ok (full, c')) (hfull : 65535 < full.size) :
    poolTable c = poolEntries 65535 0 full c' := by
  obtain ⟨count, c₁, hcount, hentries⟩ := of_bind_ok h
  obtain ⟨rfl, hsize, -⟩ := of_overfull hentries (safe_u16.of_ok hcount) hfull
  rw [poolTable_of_count hcount, bind_of_ok hentries, hsize]
  rfl

/-- The index with 16 bits is right if and only if the table is not too large for it. -/
theorem poolTable_eq_unlimited_iff (c : Cursor) : poolTable c = unlimitedTable c ↔
    ∀ table c', unlimitedTable c = .ok (table, c') → table.size ≤ 65535 := by
  refine ⟨fun heq table c' h => ?_, poolTable_of_size_le⟩
  by_contra hfull
  rw [poolTable_of_overfull h (Nat.lt_of_not_le hfull), h] at heq
  exact poolEntries_ne_of_lt (by decide) table table c' heq

theorem Reads.unlimitedEntries {first second : List UInt8} {entries : List PoolEntry}
    {full : PoolTable} (h : (poolEntry table.size.toUInt16).Reads first entries)
    (hlt : table.size < count)
    (hrest : Reads (unlimitedEntries count (table ++ entries)) second full) :
    Reads (unlimitedEntries count table) (first ++ second) full := by
  rw [unlimitedEntries_of_lt hlt]
  exact h.bind hrest

/-- Many constants that are the same. -/
theorem reads_unlimitedEntries_replicate {bytes second : List UInt8} {entry : PoolEntry}
    {full : PoolTable} (h : ∀ index, (poolEntry index).Reads bytes [entry]) {n : Nat}
    (hle : table.size + n ≤ count)
    (hrest : Reads (unlimitedEntries count (table ++ List.replicate n entry)) second full) :
    Reads (unlimitedEntries count table) ((List.replicate n bytes).flatten ++ second) full := by
  induction n generalizing table with
  | zero => simpa using hrest
  | succ n ih =>
    have hsize := PoolTable.size_append table [entry]
    rw [List.length_singleton] at hsize
    rw [List.replicate_succ, List.flatten_cons, List.append_assoc]
    refine (h _).unlimitedEntries (by omega) (ih (by omega) ?_)
    simpa [List.replicate_succ] using hrest

end Reader

namespace Overfull

def long : List UInt8 := [5, 0, 0, 0, 0, 0, 0, 0, 0]

/-- A pool with a text, some classes of that name and, at the last place of those it declares, a
constant of eight bytes. -/
def pool (n : Nat) : List UInt8 :=
  Word.bytes2 (n + 3) ++ ((Constant.utf8 "A").bytes ++
    ((List.replicate n (Constant.classRef 1).bytes).flatten ++ long))

def table (n : Nat) : PoolTable :=
  (#[PoolEntry.unusable] : PoolTable) ++ [PoolEntry.utf8 "A"] ++
    List.replicate n (PoolEntry.classRef 1) ++ [PoolEntry.other, PoolEntry.unusable]

theorem size_table (n : Nat) : (table n).size = n + 4 := by
  simp [table]

theorem reads_long (index : UInt16) : (Reader.poolEntry index).Reads long [.other, .unusable] := by
  have hskip := (Reader.reads_skip [0, 0, 0, 0, 0, 0, 0, 0]).andReturn
    fun _ => [PoolEntry.other, PoolEntry.unusable]
  exact (Reader.reads_u8 5).bind hskip

theorem reads_pool {n : Nat} (hn : n + 3 < 65536) :
    Reader.unlimitedTable.Reads (pool n) (table n) := by
  have htext (index : UInt16) := Reader.reads_poolEntry index (c := .utf8 "A")
    (by decide : ModifiedUtf8.size "A" ≤ 65535)
  have hclass (index : UInt16) := Reader.reads_poolEntry index (c := .classRef 1)
    (by decide : 1 < 65536)
  refine (Reader.reads_u16 hn).bind ((htext _).unlimitedEntries (by simp) ?_)
  refine Reader.reads_unlimitedEntries_replicate hclass (by simp; omega) ?_
  rw [← List.append_nil long]
  refine (reads_long _).unlimitedEntries (by simp) ?_
  rw [Reader.unlimitedEntries_of_not_lt (by simp)]
  exact Reader.reads_pure _

/-- A class that has this pool, the names in it and nothing else. -/
def file (n : Nat) : List UInt8 :=
  Word.bytes4 0xCAFEBABE ++ ([0, 0] ++ (Word.bytes2 52 ++ (pool n ++
    [0, 0x21, 0, 2, 0, 2, 0, 0, 0, 0, 0, 0, 0, 0])))

/-- What is wrong with the pool is wrong with the class. -/
theorem parse_file {n : Nat} {fault : FormatFault}
    (h : Reader.poolTable ⟨pool n ++ [0, 0x21, 0, 2, 0, 2, 0, 0, 0, 0, 0, 0, 0, 0], 8⟩ =
      .error fault) : Summary.parse (file n) = .error fault := by
  have hsummary : Reader.summary ⟨file n, 0⟩ = .error fault := by
    rw [file, Reader.summary, Reader.bind_of_ok (Reader.reads_u32 (by decide) _ _),
      if_neg (by decide)]
    refine (Reader.bind_of_ok (Reader.reads_skip [0, 0] _ _)).trans ?_
    refine (Reader.bind_of_ok (Reader.reads_u16 (by decide) _ _)).trans ?_
    exact Reader.bind_of_error h
  rw [Summary.parse, Reader.within, hsummary]
  rfl

end Overfull

/-- Reading a summary stays inside the input and inside the bodies of attributes, whatever the
bytes, and all its numbers fit. The loop over the constants ends, at a cost of three bytes for each
place in the table. Its index has enough bits exactly if the table has at most 65535 entries, and it
has more only if 65535 are declared and a constant of eight bytes is the last. Texts are decoded
without looking outside their bytes. -/
theorem Summary.parse_stays_inside (bytes : List UInt8) :
    (∀ fault, parse bytes = .error fault → fault.InRange bytes.length) ∧
    (∀ s, parse bytes = .ok s →
      s.InRange ∧ ∃ used, used <+: bytes ∧ Reader.summary.Takes used s) ∧
    (∀ pool : PoolTable, pool.InRange →
      (Reader.code pool).Safe bytes.length CodeSummary.InRange) ∧
    (∀ c table c', Reader.poolTable c = .ok (table, c') →
      c'.rest.length + 3 * table.size ≤ c.rest.length + 1) ∧
    (∀ c, Reader.poolTable c = Reader.unlimitedTable c ↔
      ∀ table c', Reader.unlimitedTable c = .ok (table, c') → table.size ≤ 65535) ∧
    (∀ c table c', Reader.unlimitedTable c = .ok (table, c') → 65535 < table.size →
      table.size = 65536 ∧ (∃ c₁, Reader.u16 c = .ok (65535, c₁)) ∧
        ∃ before : PoolTable, table = before ++ [PoolEntry.other, PoolEntry.unusable]) ∧
    ModifiedUtf8.unitsAt? bytes 0 = some (ModifiedUtf8.unitsOfBytes bytes) ∧
    ∀ u ∈ ModifiedUtf8.unitsOfBytes bytes, u < 65536 := by
  obtain ⟨hvalue, hfault⟩ := Reader.within_stays Reader.safe_summary
  refine ⟨hfault, fun s h => ⟨hvalue s h, exists_takes h⟩, fun pool => Reader.safe_code, ?_,
    Reader.poolTable_eq_unlimited_iff, ?_, ModifiedUtf8.unitsAt?_eq bytes 0,
    fun u => ModifiedUtf8.lt_of_mem_unitsOfBytes⟩
  · intro c table c' h
    obtain ⟨count, c₁, hcount, hentries⟩ := Reader.of_bind_ok h
    have hless := Reader.advances_u16 _ _ _ hcount
    have hsize := Reader.poolEntries_size_le hentries
    have hone : (#[PoolEntry.unusable] : PoolTable).size = 1 := rfl
    omega
  · intro c table c' h hfull
    obtain ⟨count, c₁, hcount, hentries⟩ := Reader.of_bind_ok h
    obtain ⟨rfl, hsize, hlast⟩ :=
      Reader.of_overfull hentries (Reader.safe_u16.of_ok hcount) hfull
    exact ⟨hsize, ⟨c₁, hcount⟩, hlast⟩

/-- A class whose table has an entry too many: behind it the reader goes on to read constants, from
index 0. -/
theorem parse_index_wraps :
    (∃ c', Reader.unlimitedTable ⟨(Overfull.file 65532).drop 8, 8⟩ =
      .ok (Overfull.table 65532, c')) ∧ (Overfull.table 65532).size = 65536 ∧
    Summary.parse (Overfull.file 65532) = .error (.unknownTag 0 0) := by
  have hsize := Overfull.size_table 65532
  have hread := Overfull.reads_pool (n := 65532) (by decide)
    [0, 0x21, 0, 2, 0, 2, 0, 0, 0, 0, 0, 0, 0, 0] 8
  refine ⟨⟨_, hread⟩, hsize, Overfull.parse_file ?_⟩
  rw [Reader.poolTable_of_overfull hread (by rw [hsize]; decide),
    Reader.poolEntries_of_lt (by decide)]
  exact Reader.bind_of_error rfl

end SmalltalkJvm
