import VisualOS.X86.Madt
import VisualOS.X86.Pci

/-!
# Walks over the tables of the firmware

How the loop of `madt_init` ends, and which bytes of their tables the three walkers read.  What they
compute depends on these bytes only.
-/

namespace VisualOS.Kernel

/-! ## The end of the loop over the records -/

/-- The condition of the loop fails after some rounds, whatever the records are stored to. -/
def MadtEnds (table : Nat → BitVec 8) : Prop :=
  ∃ rounds, (madtWalk table rounds 0).length < rounds

/-- No record that the loop comes to has the length 0. -/
def NoEmptyRecord (table : Nat → BitVec 8) : Prop :=
  ∀ rounds, ∀ record ∈ madtWalk table rounds 0, table (record + 1) ≠ 0

section Ends

variable {table : Nat → BitVec 8} {rounds t : Nat} {s s' : MadtState}

private theorem madtWalk_succ (ht : t < madtBound table) :
    madtWalk table (rounds + 1) t = (sizeofMadtHeader + t) ::
      madtWalk table rounds ((t + (table (sizeofMadtHeader + t + 1)).toNat) % 2 ^ 64) := by
  rw [madtWalk, if_pos ht]

private theorem madtWalk_end (ht : ¬t < madtBound table) : madtWalk table (rounds + 1) t = [] := by
  rw [madtWalk, if_neg ht]

private theorem madtLoop_ne_running (h : (madtWalk table rounds t).length < rounds) :
    madtLoop table rounds t s ≠ .running := by
  induction rounds generalizing t s with
  | zero => exact absurd h (Nat.not_lt_zero _)
  | succ rounds ih =>
      rw [madtLoop]
      by_cases ht : t < madtBound table
      · rw [if_pos ht]
        dsimp only
        cases madtRecord table (sizeofMadtHeader + t) s with
        | none => simp
        | some s =>
            apply ih
            rw [madtWalk_succ ht, List.length_cons] at h
            exact Nat.lt_of_succ_lt_succ h
      · rw [if_neg ht]
        simp

private theorem length_madtWalk_of_finished (h : madtLoop table rounds t s = .finished s') :
    (madtWalk table rounds t).length < rounds := by
  induction rounds generalizing t s with
  | zero => simp [madtLoop] at h
  | succ rounds ih =>
      rw [madtLoop] at h
      by_cases ht : t < madtBound table
      · rw [if_pos ht] at h
        dsimp only at h
        rw [madtWalk_succ ht, List.length_cons]
        cases hrecord : madtRecord table (sizeofMadtHeader + t) s with
        | none => simp [hrecord] at h
        | some s =>
            rw [hrecord] at h
            exact Nat.succ_lt_succ (ih h)
      · rw [madtWalk_end ht]
        exact Nat.succ_pos rounds

/-- The walk is that of `madt_init`: the loop is left when the walk ends, unless it was left for a
store beyond the end of an array. -/
theorem madtInit_ends (table : Nat → BitVec 8) :
    (MadtEnds table → ∃ rounds, madtInit rounds table ≠ .running) ∧
      ∀ rounds s, madtInit rounds table = .finished s → MadtEnds table := by
  constructor
  · rintro ⟨rounds, h⟩
    refine ⟨rounds, ?_⟩
    have hloop : madtLoop table rounds 0 (madtStart table) ≠ .running := madtLoop_ne_running h
    rw [madtInit]
    cases hcase : madtLoop table rounds 0 (madtStart table) with
    | running => exact absurd hcase hloop
    | overrun => simp
    | finished s => simp
  · intro rounds s h
    rw [madtInit] at h
    cases hcase : madtLoop table rounds 0 (madtStart table) with
    | running => simp [hcase] at h
    | overrun => simp [hcase] at h
    | finished s' => exact ⟨rounds, length_madtWalk_of_finished hcase⟩

/-- An empty record is met again and again. -/
theorem madtWalk_stuck (ht : t < madtBound table) (hempty : table (sizeofMadtHeader + t + 1) = 0)
    (rounds : Nat) : (madtWalk table rounds t).length = rounds := by
  have hbound : madtBound table < 2 ^ 64 := Nat.mod_lt _ (by decide)
  have hnext : (t + (table (sizeofMadtHeader + t + 1)).toNat) % 2 ^ 64 = t := by
    rw [hempty]
    exact Nat.mod_eq_of_lt (ht.trans hbound)
  induction rounds with
  | zero => rfl
  | succ rounds ih => rw [madtWalk_succ ht, hnext, List.length_cons, ih]

private theorem length_madtWalk_of_empty {record : Nat} (hrecord : record ∈ madtWalk table rounds t)
    (hempty : table (record + 1) = 0) (n : Nat) : (madtWalk table n t).length = n := by
  induction rounds generalizing t n with
  | zero => exact absurd hrecord List.not_mem_nil
  | succ rounds ih =>
      by_cases ht : t < madtBound table
      · rw [madtWalk_succ ht, List.mem_cons] at hrecord
        rcases hrecord with rfl | hrecord
        · exact madtWalk_stuck ht hempty n
        · cases n with
          | zero => rfl
          | succ n => rw [madtWalk_succ ht, List.length_cons, ih hrecord]
      · rw [madtWalk_end ht] at hrecord
        exact absurd hrecord List.not_mem_nil

/-- Every record brings the loop closer to the end. -/
theorem madtWalk_ends (hlength : sizeofMadtHeader ≤ sdtLength table)
    (hrecords : ∀ rounds, ∀ record ∈ madtWalk table rounds t, table (record + 1) ≠ 0) :
    ∃ rounds, (madtWalk table rounds t).length < rounds := by
  have hbound : madtBound table ≤ 2 ^ 32 := by
    have hlt := (readUint32 table 4).isLt
    rw [sdtLength, sizeofMadtHeader] at hlength
    rw [madtBound, sizeofMadtHeader]
    omega
  induction hleft : madtBound table - t using Nat.strong_induction_on generalizing t with
  | _ left ih =>
      by_cases ht : t < madtBound table
      · have hpos : 0 < (table (sizeofMadtHeader + t + 1)).toNat := by
          apply Nat.pos_of_ne_zero
          intro hzero
          apply hrecords 1 (sizeofMadtHeader + t)
          · rw [madtWalk_succ ht]
            exact List.mem_cons_self
          · exact BitVec.eq_of_toNat_eq hzero
        have hlt := (table (sizeofMadtHeader + t + 1)).isLt
        have hnext : (t + (table (sizeofMadtHeader + t + 1)).toNat) % 2 ^ 64 =
            t + (table (sizeofMadtHeader + t + 1)).toNat := Nat.mod_eq_of_lt (by omega)
        obtain ⟨rounds, hrounds⟩ := ih _ (by omega)
          (t := t + (table (sizeofMadtHeader + t + 1)).toNat) (fun rounds record hrecord => by
            apply hrecords (rounds + 1)
            rw [madtWalk_succ ht, hnext]
            exact List.mem_cons_of_mem _ hrecord) rfl
        refine ⟨rounds + 1, ?_⟩
        rw [madtWalk_succ ht, hnext, List.length_cons]
        exact Nat.succ_lt_succ hrounds
      · exact ⟨1, by rw [madtWalk_end ht]; exact Nat.one_pos⟩

/-- The loop ends exactly if it comes to no record of length 0. -/
theorem madt_loop_ends_iff (hlength : sizeofMadtHeader ≤ sdtLength table) :
    MadtEnds table ↔ NoEmptyRecord table := by
  constructor
  · rintro ⟨n, hn⟩ rounds record hrecord hempty
    rw [length_madtWalk_of_empty hrecord hempty] at hn
    exact lt_irrefl n hn
  · intro h
    exact madtWalk_ends hlength h

end Ends

theorem madt_loop_ends_small :
    sizeofMadtHeader ≤ sdtLength smallTable ∧ MadtEnds smallTable ∧ NoEmptyRecord smallTable := by
  have hlength : sizeofMadtHeader ≤ sdtLength smallTable := by decide
  have hends : MadtEnds smallTable := ⟨4, by decide⟩
  exact ⟨hlength, hends, (madt_loop_ends_iff hlength).mp hends⟩

/-- A table of 46 bytes whose only record is two zeros. -/
def emptyRecordTable (i : Nat) : BitVec 8 := if i = 4 then 46 else 0

theorem madt_loop_hangs :
    sizeofMadtHeader ≤ sdtLength emptyRecordTable ∧ ¬MadtEnds emptyRecordTable := by
  refine ⟨by decide, ?_⟩
  rintro ⟨n, hn⟩
  rw [madtWalk_stuck (by decide) (by decide)] at hn
  exact lt_irrefl n hn

/-! ## The bytes of the MADT that are read -/

section Reads

variable (table : Nat → BitVec 8)

/-- The fields that the case of a record reads. -/
def madtFields (record : Nat) : List Nat :=
  match (table record).toNat with
  | 1 => List.range' (record + 4) 4
  | 4 => [record + 2]
  | 5 => List.range' (record + 4) 8
  | _ => []

/-- What a round of the loop reads of the record: its length, its type and fields. -/
def madtRecordReads (record : Nat) : List Nat := (record + 1) :: record :: madtFields table record

/-- The reads of the loop.  The condition reads the length of the table. -/
def madtReads : Nat → Nat → List Nat
  | 0, _ => []
  | rounds + 1, t =>
      List.range' 4 4 ++
        if t < madtBound table then
          madtRecordReads table (sizeofMadtHeader + t) ++
            madtReads rounds ((t + (table (sizeofMadtHeader + t + 1)).toNat) % 2 ^ 64)
        else []

/-- The length is read for `pageframe_reserve_size`, and the address of the local APIC. -/
def madtInitReads (rounds : Nat) : List Nat :=
  List.range' 4 4 ++ List.range' 36 4 ++ madtReads table rounds 0

/-- All that `madt_init` reads of the table is below its length. -/
def MadtInside : Prop := ∀ rounds, ∀ offset ∈ madtInitReads table rounds, offset < sdtLength table

/-- The bytes of a record up to the last one that is read. -/
def madtReadSize (type : BitVec 8) : Nat :=
  match type.toNat with
  | 1 => 8
  | 4 => 3
  | 5 => 12
  | _ => 2

/-- The header is in the table, and so is what is read of every record the loop comes to. -/
def MadtRecordsFit : Prop :=
  sizeofMadtHeader ≤ sdtLength table ∧ ∀ rounds, ∀ record ∈ madtWalk table rounds 0,
    record + madtReadSize (table record) ≤ sdtLength table

end Reads

section Madt

variable {table table' : Nat → BitVec 8} {rounds t record limit : Nat}

private theorem madtRecordReads_lt_iff :
    (∀ offset ∈ madtRecordReads table record, offset < limit) ↔
      record + madtReadSize (table record) ≤ limit := by
  rw [madtRecordReads, madtFields, madtReadSize]
  split
  all_goals
    simp only [List.forall_mem_cons, List.mem_range'_1, List.mem_singleton, forall_eq]
  · constructor
    · rintro ⟨-, -, h⟩
      have := h (record + 7) (by omega)
      omega
    · intro h
      exact ⟨by omega, by omega, fun offset hoffset => by omega⟩
  · omega
  · constructor
    · rintro ⟨-, -, h⟩
      have := h (record + 11) (by omega)
      omega
    · intro h
      exact ⟨by omega, by omega, fun offset hoffset => by omega⟩
  · omega

private theorem mem_madtReads {offset : Nat} (h : offset ∈ madtReads table rounds t) :
    offset ∈ List.range' 4 4 ∨
      ∃ record ∈ madtWalk table rounds t, offset ∈ madtRecordReads table record := by
  induction rounds generalizing t with
  | zero => exact absurd h List.not_mem_nil
  | succ rounds ih =>
      rw [madtReads, List.mem_append] at h
      rcases h with h | h
      · exact .inl h
      · split_ifs at h with ht
        · rw [madtWalk_succ ht]
          rcases List.mem_append.mp h with h | h
          · exact .inr ⟨_, List.mem_cons_self, h⟩
          · apply (ih h).imp_right
            rintro ⟨record, hrecord, hread⟩
            exact ⟨record, List.mem_cons_of_mem _ hrecord, hread⟩
        · exact absurd h List.not_mem_nil

private theorem madtRecordReads_subset {offset : Nat} (hrecord : record ∈ madtWalk table rounds t)
    (h : offset ∈ madtRecordReads table record) : offset ∈ madtReads table rounds t := by
  induction rounds generalizing t with
  | zero => exact absurd hrecord List.not_mem_nil
  | succ rounds ih =>
      by_cases ht : t < madtBound table
      · rw [madtWalk_succ ht, List.mem_cons] at hrecord
        rw [madtReads, if_pos ht, List.mem_append, List.mem_append]
        rcases hrecord with rfl | hrecord
        · exact .inr (.inl h)
        · exact .inr (.inr (ih hrecord))
      · rw [madtWalk_end ht] at hrecord
        exact absurd hrecord List.not_mem_nil

private theorem madtInside_iff (table : Nat → BitVec 8) :
    MadtInside table ↔ MadtRecordsFit table := by
  constructor
  · intro h
    have hrecords : ∀ rounds, ∀ record ∈ madtWalk table rounds 0,
        record + madtReadSize (table record) ≤ sdtLength table := by
      intro rounds record hrecord
      rw [← madtRecordReads_lt_iff]
      intro offset hoffset
      apply h rounds
      rw [madtInitReads, List.mem_append]
      exact .inr (madtRecordReads_subset hrecord hoffset)
    refine ⟨?_, hrecords⟩
    -- A length less than that of the header gives a bound near the end of the address space.
    by_contra hshort
    have hbound : 0 < madtBound table := sdtBound_pos (Nat.lt_of_not_le hshort) (by decide)
    have hfirst := hrecords 1 sizeofMadtHeader (by
      rw [madtWalk_succ hbound]
      exact List.mem_cons_self)
    omega
  · rintro ⟨hheader, hrecords⟩ rounds offset hoffset
    rw [sizeofMadtHeader] at hheader
    rw [madtInitReads, List.mem_append, List.mem_append, List.mem_range'_1, List.mem_range'_1]
      at hoffset
    rcases hoffset with (h | h) | h
    · omega
    · omega
    · rcases mem_madtReads h with h | ⟨record, hrecord, h⟩
      · rw [List.mem_range'_1] at h
        omega
      · exact madtRecordReads_lt_iff.mpr (hrecords rounds record hrecord) offset h

private theorem readUint32_congr {offset : Nat}
    (h : ∀ i ∈ List.range' offset 4, table' i = table i) :
    readUint32 table' offset = readUint32 table offset := by
  simp only [List.mem_range'_1] at h
  rw [readUint32, readUint32, h _ (by omega), h _ (by omega), h _ (by omega), h _ (by omega)]

private theorem madtRecord_congr (h : ∀ i ∈ madtRecordReads table record, table' i = table i)
    (s : MadtState) : madtRecord table' record s = madtRecord table record s := by
  rw [madtRecordReads, madtFields, List.forall_mem_cons, List.forall_mem_cons] at h
  obtain ⟨-, htype, hfields⟩ := h
  rw [madtRecord, madtRecord, htype]
  generalize (table record).toNat = type at hfields ⊢
  rcases type with _ | _ | _ | _ | _ | _ | type
  · show madtStore .processors record s = madtStore .processors record s
    rfl
  · show madtStore .ioapics record _ = madtStore .ioapics record _
    rw [readUint32_congr hfields]
  · show madtStore .isos record s = madtStore .isos record s
    rfl
  · show some s = some s
    rfl
  · show madtStore .nmis record s = madtStore .nmis record s
    rfl
  · show some _ = some _
    rw [@readUint64_congr table' table (record + 4) (record + 4)]
    intro j hj
    exact hfields _ (List.mem_range'_1.mpr (by omega))
  · show some s = some s
    rfl

private theorem madtLoop_congr (h : ∀ i ∈ madtReads table rounds t, table' i = table i)
    (s : MadtState) : madtLoop table' rounds t s = madtLoop table rounds t s := by
  induction rounds generalizing t s with
  | zero => rfl
  | succ rounds ih =>
      rw [madtReads, List.forall_mem_append] at h
      obtain ⟨hlength, h⟩ := h
      have hbound : madtBound table' = madtBound table := by
        rw [madtBound, madtBound, readUint32_congr hlength]
      rw [madtLoop, madtLoop, hbound]
      split_ifs with ht
      · rw [if_pos ht, List.forall_mem_append] at h
        dsimp only
        rw [madtRecord_congr h.1, h.1 _ List.mem_cons_self]
        cases madtRecord table (sizeofMadtHeader + t) s with
        | none => rfl
        | some s => exact ih h.2 s
      · rfl

/-- Nothing but these bytes is read. -/
theorem madtInit_congr (h : ∀ i ∈ madtInitReads table rounds, table' i = table i) :
    madtInit rounds table' = madtInit rounds table := by
  rw [madtInitReads, List.forall_mem_append, List.forall_mem_append] at h
  obtain ⟨⟨hlength, haddress⟩, hloop⟩ := h
  rw [madtInit, madtInit, madtStart, madtStart, readUint32_congr hlength,
    readUint32_congr haddress, madtLoop_congr hloop]

end Madt

/-! ## The bytes of the MCFG that are read -/

section Reads

variable (table : Nat → BitVec 8)

/-- The buses of a descriptor, and its base if there is a bus. -/
def descriptorReads (descriptor : Nat) : List Nat :=
  (descriptor + 10) :: (descriptor + 11) ::
    if (table (descriptor + 10)).toNat < (table (descriptor + 11)).toNat then
      List.range' descriptor 8
    else []

/-- The reads of the loop over the descriptors. -/
def pciReads : Nat → Nat → List Nat
  | 0, _ => []
  | rounds + 1, t =>
      List.range' 4 4 ++
        if t < (sdtLength table + 2 ^ 64 - sizeofMcfgHeader) % 2 ^ 64 then
          descriptorReads table ((sizeofMcfgHeader + t) % 2 ^ 64) ++
            pciReads rounds ((t + sizeofPciDescriptor) % 2 ^ 64)
        else []

/-- All that `pci_init` reads of the table is below its length. -/
def PciInside : Prop := ∀ rounds, ∀ offset ∈ pciReads table rounds 0, offset < sdtLength table

/-- The header is in the table, and what follows the last descriptor is empty or has the fields
that are read. -/
def McfgWhole : Prop :=
  sizeofMcfgHeader ≤ sdtLength table ∧
    ((sdtLength table - sizeofMcfgHeader) % sizeofPciDescriptor = 0 ∨
      12 ≤ (sdtLength table - sizeofMcfgHeader) % sizeofPciDescriptor)

end Reads

section Mcfg

variable {table table' : Nat → BitVec 8} {rounds k t descriptor limit : Nat}

private theorem descriptorReads_lt (h : descriptor + 12 ≤ limit) :
    ∀ offset ∈ descriptorReads table descriptor, offset < limit := by
  rw [descriptorReads, List.forall_mem_cons, List.forall_mem_cons]
  refine ⟨by omega, by omega, ?_⟩
  intro offset hoffset
  split_ifs at hoffset
  · rw [List.mem_range'_1] at hoffset
    omega
  · exact absurd hoffset List.not_mem_nil

private theorem pciReads_succ (hheader : sizeofMcfgHeader ≤ sdtLength table)
    (hk : sizeofPciDescriptor * k < sdtLength table - sizeofMcfgHeader) :
    pciReads table (rounds + 1) (sizeofPciDescriptor * k) = List.range' 4 4 ++
      (descriptorReads table (sizeofMcfgHeader + sizeofPciDescriptor * k) ++
        pciReads table rounds (sizeofPciDescriptor * (k + 1))) := by
  obtain ⟨hentry, hnext⟩ := @mcfgOffset_eq table k (by omega)
  rw [pciReads, sdtBound_eq hheader, if_pos hk, hentry, hnext]

private theorem pciReads_lt (h : McfgWhole table) :
    ∀ offset ∈ pciReads table rounds (sizeofPciDescriptor * k), offset < sdtLength table := by
  obtain ⟨hheader, hwhole⟩ := h
  have hlength : ∀ offset ∈ List.range' 4 4, offset < sdtLength table := by
    intro offset hoffset
    rw [sizeofMcfgHeader] at hheader
    rw [List.mem_range'_1] at hoffset
    omega
  induction rounds generalizing k with
  | zero => exact fun offset h => absurd h List.not_mem_nil
  | succ rounds ih =>
      by_cases hk : sizeofPciDescriptor * k < sdtLength table - sizeofMcfgHeader
      · rw [pciReads_succ hheader hk, List.forall_mem_append, List.forall_mem_append]
        refine ⟨hlength, descriptorReads_lt ?_, ih⟩
        rw [sizeofMcfgHeader, sizeofPciDescriptor] at *
        omega
      · rw [pciReads, sdtBound_eq hheader, if_neg hk, List.append_nil]
        exact hlength

private theorem mem_pciReads {last : Nat} (hheader : sizeofMcfgHeader ≤ sdtLength table)
    (hlast : sizeofPciDescriptor * last < sdtLength table - sizeofMcfgHeader)
    (hk : k + rounds = last) :
    sizeofMcfgHeader + sizeofPciDescriptor * last + 11 ∈
      pciReads table (rounds + 1) (sizeofPciDescriptor * k) := by
  have hbegins : sizeofPciDescriptor * k < sdtLength table - sizeofMcfgHeader := by
    rw [sizeofPciDescriptor] at *
    omega
  rw [pciReads_succ hheader hbegins, List.mem_append, List.mem_append]
  induction rounds generalizing k with
  | zero =>
      rw [Nat.add_zero] at hk
      simp [descriptorReads, hk]
  | succ rounds ih =>
      have hnext : sizeofPciDescriptor * (k + 1) < sdtLength table - sizeofMcfgHeader := by
        rw [sizeofPciDescriptor] at *
        omega
      rw [pciReads_succ hheader hnext, List.mem_append, List.mem_append]
      exact .inr (.inr (ih (by omega) hnext))

private theorem pciInside_iff (table : Nat → BitVec 8) : PciInside table ↔ McfgWhole table := by
  constructor
  · intro h
    have hheader : sizeofMcfgHeader ≤ sdtLength table := by
      by_contra hshort
      have hbound := sdtBound_pos (Nat.lt_of_not_le hshort) (by decide)
      have hfirst := h 1 (sizeofMcfgHeader + 10) (by
        rw [pciReads, if_pos hbound]
        simp [descriptorReads, sizeofMcfgHeader])
      omega
    refine ⟨hheader, ?_⟩
    by_contra hrest
    rw [sizeofPciDescriptor] at hrest
    have hbegins : sizeofPciDescriptor * ((sdtLength table - sizeofMcfgHeader) / 16) <
        sdtLength table - sizeofMcfgHeader := by
      rw [sizeofPciDescriptor]
      omega
    have hlast := h _ _ (mem_pciReads hheader hbegins (Nat.zero_add _))
    rw [sizeofPciDescriptor] at hlast
    omega
  · intro h rounds
    exact @pciReads_lt table rounds 0 h

private theorem pciBusLoop_congr {memory : BitVec 64 → BitVec 8} {busI : Nat}
    (hend : table' (descriptor + 11) = table (descriptor + 11))
    (hbase : busI < (table (descriptor + 11)).toNat →
      readUint64 table' descriptor = readUint64 table descriptor) (s : PciState) :
    pciBusLoop table' memory descriptor rounds busI s =
      pciBusLoop table memory descriptor rounds busI s := by
  induction rounds generalizing busI s with
  | zero => rfl
  | succ rounds ih =>
      rw [pciBusLoop, pciBusLoop, hend]
      split_ifs with hlt
      · dsimp only
        rw [hbase hlt]
        congr 1
        funext s
        exact ih (fun h => hbase (by omega)) s
      · rfl

private theorem pciLoop_congr {memory : BitVec 64 → BitVec 8}
    (h : ∀ i ∈ pciReads table rounds t, table' i = table i) (s : PciState) :
    pciLoop table' memory rounds t s = pciLoop table memory rounds t s := by
  induction rounds generalizing t s with
  | zero => rfl
  | succ rounds ih =>
      rw [pciReads, List.forall_mem_append] at h
      obtain ⟨hlength, h⟩ := h
      have hbound : sdtLength table' = sdtLength table := by
        rw [sdtLength, sdtLength, readUint32_congr hlength]
      rw [pciLoop, pciLoop, hbound]
      split_ifs with ht
      · rw [if_pos ht, List.forall_mem_append, descriptorReads, List.forall_mem_cons,
          List.forall_mem_cons] at h
        obtain ⟨⟨hstart, hend, hbase⟩, hnext⟩ := h
        dsimp only
        rw [hstart, pciBusLoop_congr hend]
        · cases pciBusLoop table memory ((sizeofMcfgHeader + t) % 2 ^ 64) 256
              (table ((sizeofMcfgHeader + t) % 2 ^ 64 + 10)).toNat s with
          | none => rfl
          | some s => exact ih hnext s
        · intro hlt
          rw [if_pos hlt] at hbase
          apply readUint64_congr
          intro j hj
          exact hbase _ (List.mem_range'_1.mpr (by omega))
      · rfl

theorem pciInit_congr {memory : BitVec 64 → BitVec 8}
    (h : ∀ i ∈ pciReads table rounds 0, table' i = table i) :
    pciInit rounds table' memory = pciInit rounds table memory :=
  pciLoop_congr h ⟨[], []⟩

end Mcfg

/-! ## The three walkers -/

/-- The tables are read below their lengths and the first table with the signature is found if and
only if each of the tables holds its header and what is read of its elements. -/
theorem table_walkers_inside_iff (xsdt madt mcfg : Nat → BitVec 8)
    (memory : BitVec 64 → BitVec 8) (signature : Nat → BitVec 8) :
    (AcpiFinds xsdt memory signature ∧ MadtInside madt ∧ PciInside mcfg) ↔
      AcpiCondition xsdt memory signature ∧ MadtRecordsFit madt ∧ McfgWhole mcfg := by
  rw [acpiFinds_iff, madtInside_iff, pciInside_iff]

/-- A table of a length below 256 with an override of the local APIC of two bytes behind the header
of a MADT. -/
def shortTable (length : BitVec 8) (i : Nat) : BitVec 8 :=
  if i = 4 then length else if i = 44 then 5 else if i = 45 then 2 else 0

/-- The end of each of the three tables is in the middle of what is read last. -/
theorem table_walkers_outside :
    ¬AcpiFinds (shortTable 40) (fun _ => 0) (fun _ => 65) ∧ ¬MadtInside (shortTable 46) ∧
      ¬PciInside (shortTable 52) := by
  rw [acpiFinds_iff, madtInside_iff, pciInside_iff]
  refine ⟨?_, ?_, ?_⟩
  · rintro ⟨-, hwhole, -⟩
    rcases hwhole with hrem | ⟨listed, hlisted, -⟩
    · exact absurd hrem (by decide)
    · have hnone : listedTables (shortTable 40) = [] := by decide
      rw [hnone] at hlisted
      exact absurd hlisted List.not_mem_nil
  · rintro ⟨-, hrecords⟩
    exact absurd (hrecords 1 44 (by decide)) (by decide)
  · rintro ⟨-, hrest⟩
    exact absurd hrest (by decide)

end VisualOS.Kernel
