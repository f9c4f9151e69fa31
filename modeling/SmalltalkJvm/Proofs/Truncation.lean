import SmalltalkJvm.Proofs.RoundTrip

/-! # Class files that are cut off

A reader that succeeds has taken some bytes from the front of its input and has looked at no others:
it takes the same bytes for the same value whatever follows them. Of a shorter beginning of these
bytes it says that the input is truncated, at a place inside it.

So a class file can be read with anything behind it, and every beginning of it either is enough for
the same summary or is recognised as cut off. No proper beginning of a file as it is written is
enough.
-/

namespace SmalltalkJvm

/-- Induction along the bytes that are left: a loop of readers leaves fewer each time. -/
@[elab_as_elim]
theorem Cursor.rest_induction {motive : Cursor → Prop}
    (step : ∀ c, (∀ c', c'.rest.length < c.rest.length → motive c') → motive c) (c : Cursor) :
    motive c := by
  induction hn : c.rest.length using Nat.strong_induction_on generalizing c with
  | _ n ih => exact step c fun c' hless => ih _ (hn ▸ hless) c' rfl

namespace Reader

variable {α β : Type}

structure Takes (r : Reader α) (bytes : List UInt8) (a : α) : Prop where
  reads : r.Reads bytes a
  truncates : ∀ front, front <+: bytes → front ≠ bytes → ∀ position, ∃ n ≤ front.length,
    r ⟨front, position⟩ = .error (.truncated (position + n))

def Exact (r : Reader α) : Prop :=
  ∀ c a c', r c = .ok (a, c') → ∃ bytes, c.rest = bytes ++ c'.rest ∧
    c'.position = c.position + bytes.length ∧ r.Takes bytes a

theorem takes_of_reads_nil {r : Reader α} {a : α} (h : r.Reads [] a) : r.Takes [] a :=
  ⟨h, fun _ hfront hne => absurd (List.prefix_nil.1 hfront) hne⟩

theorem bind_of_ok {r : Reader α} {f : α → Reader β} {c c' : Cursor} {a : α}
    (h : r c = .ok (a, c')) : (r >>= f) c = f a c' := by
  simp only [Bind.bind, StateT.bind, Except.bind, h]

theorem bind_of_error {r : Reader α} {f : α → Reader β} {c : Cursor} {fault : FormatFault}
    (h : r c = .error fault) : (r >>= f) c = .error fault := by
  simp only [Bind.bind, StateT.bind, Except.bind, h]

theorem of_bind_ok {r : Reader α} {f : α → Reader β} {c c' : Cursor} {b : β}
    (h : (r >>= f) c = .ok (b, c')) : ∃ a c₁, r c = .ok (a, c₁) ∧ f a c₁ = .ok (b, c') := by
  cases hr : r c with
  | error fault =>
    rw [bind_of_error hr] at h
    cases h
  | ok read =>
    rw [bind_of_ok hr] at h
    exact ⟨read.1, read.2, rfl, h⟩

theorem of_within_ok {bytes : List UInt8} {r : Reader α} {a : α} (h : within bytes r = .ok a) :
    ∃ c', r ⟨bytes, 0⟩ = .ok (a, c') := by
  cases hr : r ⟨bytes, 0⟩ with
  | error fault =>
    rw [within, hr] at h
    cases h
  | ok read =>
    rw [within, hr] at h
    cases h
    exact ⟨read.2, rfl⟩

theorem Takes.bind {r : Reader α} {f : α → Reader β} {first second : List UInt8} {a : α} {b : β}
    (hr : r.Takes first a) (hf : (f a).Takes second b) : (r >>= f).Takes (first ++ second) b := by
  refine ⟨hr.reads.bind hf.reads, fun front hfront hne position => ?_⟩
  -- The cut is inside what the first reader takes, or behind it.
  by_cases hfirst : first <+: front
  · obtain ⟨front, rfl⟩ := hfirst
    obtain ⟨n, hn, hcut⟩ := hf.truncates front ((List.prefix_append_right_inj first).1 hfront)
      (fun h => hne (by rw [h])) (position + first.length)
    refine ⟨first.length + n, by rw [List.length_append]; omega, ?_⟩
    rw [bind_of_ok (hr.reads front position), hcut, Nat.add_assoc]
  · have hshort : front <+: first :=
      (List.prefix_or_prefix_of_prefix hfront (List.prefix_append first second)).resolve_right
        hfirst
    obtain ⟨n, hn, hcut⟩ := hr.truncates front hshort
      (fun h => hfirst (h ▸ List.prefix_rfl)) position
    exact ⟨n, hn, bind_of_error hcut⟩

theorem Exact.bind {r : Reader α} {f : α → Reader β} (hr : r.Exact) (hf : ∀ a, (f a).Exact) :
    (r >>= f).Exact := by
  intro c b c' h
  obtain ⟨a, c₁, hfirst, hsecond⟩ := of_bind_ok h
  obtain ⟨first, hrest₁, hposition₁, htakes₁⟩ := hr c a c₁ hfirst
  obtain ⟨second, hrest₂, hposition₂, htakes₂⟩ := hf a c₁ b c' hsecond
  refine ⟨first ++ second, ?_, ?_, htakes₁.bind htakes₂⟩
  · rw [hrest₁, hrest₂, List.append_assoc]
  · rw [hposition₂, hposition₁, List.length_append, Nat.add_assoc]

theorem exact_pure (a : α) : Exact (pure a) := by
  intro c b c' h
  cases h
  exact ⟨[], rfl, rfl, takes_of_reads_nil (reads_pure a)⟩

theorem exact_throw (fault : FormatFault) : Exact (throw fault : Reader α) := by
  intro c a c' h
  cases h

/-- What does not touch the input. -/
theorem exact_known (x : Except FormatFault α) : Exact (liftM x : Reader α) := by
  intro c a c' h
  cases x with
  | error fault => cases h
  | ok b =>
    cases h
    exact ⟨[], rfl, rfl, takes_of_reads_nil (reads_known rfl)⟩

theorem Exact.map {r : Reader α} (hr : r.Exact) (f : α → β) : (f <$> r).Exact := by
  rw [map_eq_pure_bind]
  exact hr.bind fun a => exact_pure (f a)

theorem exact_take (n : Nat) : Exact (take n) := by
  intro c a c' h
  simp only [take] at h
  split_ifs at h with hfull
  cases h
  refine ⟨c.rest.take n, (List.take_append_drop n c.rest).symm, by rw [hfull], ?_, ?_⟩
  · simpa [hfull] using reads_take (c.rest.take n)
  · intro front hfront hne position
    refine ⟨0, Nat.zero_le _, ?_⟩
    have hlt : front.length < n := by
      have hle := hfront.length_le
      have hlength : front.length ≠ (c.rest.take n).length := fun h => hne (hfront.eq_of_length h)
      omega
    simp only [take]
    rw [if_neg (by rw [List.length_take]; omega)]
    rfl

theorem exact_skip (n : Nat) : Exact (skip n) := (exact_take n).bind fun _ => exact_pure _

theorem exact_u8 : Exact u8 := (exact_take 1).bind fun _ => exact_pure _

theorem exact_u16 : Exact u16 := (exact_take 2).bind fun _ => exact_pure _

theorem exact_u32 : Exact u32 := (exact_take 4).bind fun _ => exact_pure _

theorem exact_block : Exact block := exact_u32.bind exact_take

theorem Exact.times_go {r : Reader α} (hr : r.Exact) (found : List α) (n : Nat) :
    (times.go r found n).Exact := by
  induction n generalizing found with
  | zero => exact exact_pure _
  | succ n ih => exact hr.bind fun a => ih (a :: found)

theorem Exact.counted {r : Reader α} (hr : r.Exact) : (counted r).Exact :=
  exact_u16.bind fun n => hr.times_go [] n

theorem exact_poolPayload (index : UInt16) (tag : Nat) : Exact (poolPayload index tag) := by
  unfold poolPayload
  split
  · exact exact_u16.bind fun n => (exact_take n).bind fun _ => exact_pure _
  · exact exact_u16.bind fun _ => exact_pure _
  · exact exact_u16.bind fun _ => exact_pure _
  all_goals first
    | exact (exact_skip _).bind fun _ => exact_pure _
    | exact exact_throw _

theorem exact_poolEntry (index : UInt16) : Exact (poolEntry index) :=
  exact_u8.bind fun tag => exact_poolPayload index tag

theorem poolEntries_of_lt {count index : UInt16} (h : index < count) (table : PoolTable) :
    poolEntries count index table = (poolEntry index >>= fun entries =>
      poolEntries count (index + entries.length.toUInt16) (table ++ entries) :
        Reader PoolTable) := by
  funext c
  rw [poolEntries, if_pos h]
  split
  · rename_i fault hfault
    rw [bind_of_error hfault]
  · rename_i entries c' hentry
    rw [bind_of_ok hentry]

theorem poolEntries_of_not_lt {count index : UInt16} (h : ¬index < count) (table : PoolTable) :
    poolEntries count index table = (pure table : Reader PoolTable) := by
  funext c
  rw [poolEntries, if_neg h]
  rfl

theorem exact_poolEntries (count index : UInt16) (table : PoolTable) :
    Exact (poolEntries count index table) := by
  intro c
  induction c using Cursor.rest_induction generalizing index table with
  | step c ih =>
    intro result c' h
    by_cases hlt : index < count
    · rw [poolEntries_of_lt hlt] at h ⊢
      obtain ⟨entries, c₁, hentry, hrest⟩ := of_bind_ok h
      have hless : c₁.rest.length < c.rest.length := advances_poolEntry index c entries c₁ hentry
      obtain ⟨first, hrest₁, hposition₁, htakes₁⟩ := exact_poolEntry index c entries c₁ hentry
      obtain ⟨second, hrest₂, hposition₂, htakes₂⟩ := ih c₁ hless _ _ result c' hrest
      refine ⟨first ++ second, ?_, ?_, htakes₁.bind htakes₂⟩
      · rw [hrest₁, hrest₂, List.append_assoc]
      · rw [hposition₂, hposition₁, List.length_append, Nat.add_assoc]
    · rw [poolEntries_of_not_lt hlt] at h ⊢
      exact exact_pure table c result c' h

theorem exact_poolTable : Exact poolTable :=
  exact_u16.bind fun _ => exact_poolEntries _ _ _

variable (pool : PoolTable)

theorem exact_namedBlock : Exact (namedBlock pool) :=
  exact_u16.bind fun _ => (exact_known _).bind fun _ => exact_block.bind fun _ => exact_pure _

/-- The body of an attribute has been taken as a whole before anything in it is read. -/
theorem exact_methodAttribute : Exact (methodAttribute pool) := by
  refine (exact_namedBlock pool).bind ?_
  rintro ⟨name, body⟩
  dsimp only
  split_ifs
  · exact (exact_known _).map _
  · exact exact_pure _

theorem exact_method : Exact (method pool) :=
  exact_u16.bind fun _ => exact_u16.bind fun _ => (exact_known _).bind fun _ =>
    exact_u16.bind fun _ => (exact_known _).bind fun _ =>
      (exact_methodAttribute pool).counted.bind fun _ => exact_pure _

theorem exact_skipField : Exact skipField :=
  have hattribute : Exact skipAttribute :=
    (exact_skip 2).bind fun _ => exact_block.bind fun _ => exact_pure _
  (exact_skip 6).bind fun _ => hattribute.counted.bind fun _ => exact_pure _

theorem exact_classAttribute : Exact (classAttribute pool) := by
  refine (exact_namedBlock pool).bind ?_
  rintro ⟨name, body⟩
  dsimp only
  split_ifs
  · exact (exact_known _).bind fun _ => exact_pure _
  · exact exact_pure _
  · exact exact_pure _

theorem exact_summary : Exact summary := by
  refine exact_u32.bind fun magic => ?_
  split_ifs
  · exact exact_throw _
  · exact (exact_skip 2).bind fun _ => exact_u16.bind fun _ => exact_poolTable.bind fun pool =>
      exact_u16.bind fun _ => exact_u16.bind fun _ => (exact_known _).bind fun _ =>
        exact_u16.bind fun _ => (exact_known _).bind fun _ => exact_u16.bind fun _ =>
          (exact_skip _).bind fun _ => exact_skipField.counted.bind fun _ =>
            (exact_method pool).counted.bind fun _ =>
              (exact_classAttribute pool).counted.bind fun _ => exact_pure _

end Reader

namespace Summary

/-- What is read is at the front of the bytes, and shorter beginnings of it are recognised. -/
theorem exists_takes {bytes : List UInt8} {s : Summary} (h : parse bytes = .ok s) :
    ∃ used, used <+: bytes ∧ Reader.summary.Takes used s := by
  obtain ⟨c', hread⟩ := Reader.of_within_ok h
  obtain ⟨used, hrest, -, htakes⟩ := Reader.exact_summary _ _ _ hread
  exact ⟨used, ⟨c'.rest, hrest.symm⟩, htakes⟩

theorem parse_of_takes {used : List UInt8} {s : Summary} (h : Reader.summary.Takes used s)
    {bytes : List UInt8} (hused : used <+: bytes) : parse bytes = .ok s := by
  obtain ⟨rest, rfl⟩ := hused
  exact Reader.within_of_reads h.reads rest

theorem parse_of_front {used : List UInt8} {s : Summary} (h : Reader.summary.Takes used s)
    {front : List UInt8} (hfront : front <+: used) (hne : front ≠ used) :
    ∃ n ≤ front.length, parse front = .error (.truncated n) := by
  obtain ⟨n, hn, hcut⟩ := h.truncates front hfront hne 0
  refine ⟨n, hn, ?_⟩
  rw [parse, Reader.within, hcut, Nat.zero_add]
  rfl

end Summary

/-- The counts and lengths of a class file are in the range of their fields. -/
structure ClassFile.InRange (c : ClassFile) : Prop where
  methods : c.methods.length ≤ 65535
  handlers : ∀ m ∈ c.methods, m.body.handlers.length ≤ 65535
  bootstraps : c.bootstraps.toFinset.card ≤ 65535
  parts : ∀ p l, c.parts {} = .ok p l → p.Fits c

/-- A file is read to its last byte. -/
theorem ClassFile.takes_bytes {c : ClassFile} {bytes : List UInt8} (h : c.bytes = .ok bytes)
    (hc : c.InRange) : ∃ s, Reader.summary.Takes bytes s := by
  obtain ⟨p, l, hparts, rfl⟩ := exists_parts h
  obtain ⟨hl, ha⟩ := assembled_parts hparts
  obtain ⟨s, hs, -⟩ := ha.reads hl hc.methods hc.handlers hc.bootstraps (hc.parts p l hparts)
  obtain ⟨used, hrest, -, htakes⟩ := Reader.exact_summary _ _ _ (hs [] 0)
  obtain rfl : p.bytes c l = used := by simpa using hrest
  exact ⟨s, htakes⟩

/-- What can be read can be read with anything behind it, and every beginning of it is either enough
for the same summary or truncated at a place inside it. A file as it is written is truncated
wherever it is cut. -/
theorem Summary.parse_truncates {bytes : List UInt8} {s : Summary} (h : parse bytes = .ok s) :
    (∀ tail, parse (bytes ++ tail) = .ok s) ∧
    (∀ front, front <+: bytes →
      parse front = .ok s ∨ ∃ n ≤ front.length, parse front = .error (.truncated n)) ∧
    ∀ c : ClassFile, c.bytes = .ok bytes → c.InRange → ∀ front, front <+: bytes → front ≠ bytes →
      ∃ n ≤ front.length, parse front = .error (.truncated n) := by
  obtain ⟨used, hused, htakes⟩ := exists_takes h
  refine ⟨fun tail => ?_, fun front hfront => ?_, fun c hc hrange front hfront hne => ?_⟩
  · exact parse_of_takes htakes (hused.trans (List.prefix_append bytes tail))
  · by_cases hle : used <+: front
    · exact .inl (parse_of_takes htakes hle)
    · refine .inr (parse_of_front htakes
        ((List.prefix_or_prefix_of_prefix hfront hused).resolve_right hle) ?_)
      rintro rfl
      exact hle List.prefix_rfl
  · obtain ⟨s', htakes'⟩ := ClassFile.takes_bytes hc hrange
    exact parse_of_front htakes' hfront hne

theorem parse_truncates_greeter : ∃ bytes s, Greeter.file.bytes = .ok bytes ∧
    Summary.parse bytes = .ok s ∧ Summary.parse (bytes ++ [0]) = .ok s ∧
    ∃ n, Summary.parse bytes.dropLast = .error (.truncated n) := by
  obtain ⟨bytes, hbytes⟩ := ClassFile.exists_bytes_of_fits Greeter.file_fits
  have hrange : Greeter.file.InRange := by
    refine ⟨by decide, by decide, by decide, fun p l hp => ?_⟩
    obtain ⟨hl, ha⟩ := ClassFile.assembled_parts hp
    exact ha.fits hl (by decide) (by decide) (by decide) (by decide)
  obtain ⟨s, htakes⟩ := ClassFile.takes_bytes hbytes hrange
  have hread := Summary.parse_of_takes htakes List.prefix_rfl
  obtain ⟨htail, -, hcut⟩ := Summary.parse_truncates hread
  have hne : bytes.dropLast ≠ bytes := by
    intro hsame
    have hlength := congrArg List.length hsame
    rw [List.length_dropLast] at hlength
    have hnil : bytes = [] := List.length_eq_zero_iff.1 (by omega)
    rw [hnil] at hread
    cases hread
  obtain ⟨n, -, hn⟩ := hcut Greeter.file hbytes hrange _ (List.dropLast_prefix bytes) hne
  exact ⟨bytes, s, hbytes, hread, htail [0], n, hn⟩

end SmalltalkJvm
