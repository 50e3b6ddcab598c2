import Mathlib.Tactic

/-!
# System description tables

`acpi_get_table` over the bytes of the extended system description table.  The bytes that it reads
are recorded.
-/

namespace VisualOS.Kernel

def readUint32 (table : Nat → BitVec 8) (offset : Nat) : BitVec 32 :=
  table (offset + 3) ++ table (offset + 2) ++ table (offset + 1) ++ table offset

def readUint64 (table : Nat → BitVec 8) (offset : Nat) : BitVec 64 :=
  readUint32 table (offset + 4) ++ readUint32 table offset

/-- `sizeof(struct SDTHeader)`. -/
def sizeofSdtHeader : Nat := 36

/-- The field `length` of the header. -/
def sdtLength (table : Nat → BitVec 8) : Nat := (readUint32 table 4).toNat

theorem sdtBound_eq {table : Nat → BitVec 8} {size : Nat} (h : size ≤ sdtLength table) :
    (sdtLength table + 2 ^ 64 - size) % 2 ^ 64 = sdtLength table - size := by
  have hlt : sdtLength table < 2 ^ 32 := (readUint32 table 4).isLt
  omega

/-- For a length less than the size it is near the end of the address space. -/
theorem sdtBound_pos {table : Nat → BitVec 8} {size : Nat} (h : sdtLength table < size)
    (hsize : size < 2 ^ 64) : 0 < (sdtLength table + 2 ^ 64 - size) % 2 ^ 64 := by
  omega

/-- The inner loop of `acpi_get_table`: the rounds that are left, and the index. -/
def acpiCompareLoop (memory : BitVec 64 → BitVec 8) (header : BitVec 64)
    (signature : Nat → BitVec 8) : Nat → Nat → Bool
  | 0, _ => false
  | rounds + 1, i =>
      if memory (header + BitVec.ofNat 64 i) ≠ signature i then false
      else if i = 3 then true
      else acpiCompareLoop memory header signature rounds (i + 1)

/-- Still in the loop after the given rounds, or back with a pointer. -/
inductive AcpiOutcome
  | running
  | returned (header : BitVec 64)
  deriving DecidableEq

/-- The loop of `acpi_get_table`.  `memory` is where the listed tables are; the list at the end is of
the offsets in the table itself that were read. -/
def acpiGetTableLoop (table : Nat → BitVec 8) (memory : BitVec 64 → BitVec 8)
    (signature : Nat → BitVec 8) : Nat → Nat → List Nat → AcpiOutcome × List Nat
  | 0, _, reads => (.running, reads)
  | rounds + 1, t, reads =>
      let length := sdtLength table
      let reads := reads ++ List.range' 4 4
      if t < (length + 2 ^ 64 - sizeofSdtHeader) % 2 ^ 64 then
        let entry := (sizeofSdtHeader + t) % 2 ^ 64
        let header := readUint64 table entry
        let reads := reads ++ List.range' entry 8
        if acpiCompareLoop memory header signature 4 0 then (.returned header, reads)
        else acpiGetTableLoop table memory signature rounds ((t + 8) % 2 ^ 64) reads
      else (.returned 0, reads)

def acpiGetTable (rounds : Nat) (table : Nat → BitVec 8) (memory : BitVec 64 → BitVec 8)
    (signature : Nat → BitVec 8) : AcpiOutcome × List Nat :=
  acpiGetTableLoop table memory signature rounds 0 []

/-! ## What the table lists -/

/-- The four bytes at the beginning of a table are the signature. -/
def HasSignature (memory : BitVec 64 → BitVec 8) (signature : Nat → BitVec 8)
    (header : BitVec 64) : Prop :=
  ∀ i < 4, memory (header + BitVec.ofNat 64 i) = signature i

instance (memory : BitVec 64 → BitVec 8) (signature : Nat → BitVec 8) :
    DecidablePred (HasSignature memory signature) :=
  fun header => Nat.decidableBallLT 4 fun i _ => memory (header + BitVec.ofNat 64 i) = signature i

/-- The pointers of which all eight bytes are in the table. -/
def listedTables (table : Nat → BitVec 8) : List (BitVec 64) :=
  (List.range ((sdtLength table - sizeofSdtHeader) / 8)).map fun k =>
    readUint64 table (sizeofSdtHeader + 8 * k)

/-- The first of the given tables with the signature. -/
def firstWithSignature (memory : BitVec 64 → BitVec 8) (signature : Nat → BitVec 8)
    (headers : List (BitVec 64)) : Option (BitVec 64) :=
  headers.find? fun header => decide (HasSignature memory signature header)

/-- Reads stay below the length of the table, and the first listed table with the signature is
found, with a null pointer if and only if there is none. -/
structure AcpiFinds (table : Nat → BitVec 8) (memory : BitVec 64 → BitVec 8)
    (signature : Nat → BitVec 8) : Prop where
  inside : ∀ rounds, ∀ offset ∈ (acpiGetTable rounds table memory signature).2,
    offset < sdtLength table
  found : ∃ rounds header, (acpiGetTable rounds table memory signature).1 = .returned header ∧
    (∀ first, firstWithSignature memory signature (listedTables table) = some first →
      header = first) ∧
    (header = 0 ↔ ∀ listed ∈ listedTables table, ¬HasSignature memory signature listed)

/-- The table holds its header and whole pointers, unless the search ends before the part of a
pointer at its end; and the table that is found is not at the null pointer. -/
structure AcpiCondition (table : Nat → BitVec 8) (memory : BitVec 64 → BitVec 8)
    (signature : Nat → BitVec 8) : Prop where
  header : sizeofSdtHeader ≤ sdtLength table
  whole : (sdtLength table - sizeofSdtHeader) % 8 = 0 ∨
    ∃ listed ∈ listedTables table, HasSignature memory signature listed
  nonnull : firstWithSignature memory signature (listedTables table) ≠ some 0

section Search

variable {table : Nat → BitVec 8} {memory : BitVec 64 → BitVec 8} {signature : Nat → BitVec 8}
  {rounds k t : Nat} {reads : List Nat}

private theorem acpiCompareLoop_iff {header : BitVec 64} {i : Nat} (hi : i + rounds = 4)
    (hpos : 0 < rounds) :
    acpiCompareLoop memory header signature rounds i = true ↔
      ∀ j, i ≤ j → j < 4 → memory (header + BitVec.ofNat 64 j) = signature j := by
  induction rounds generalizing i with
  | zero => omega
  | succ rounds ih =>
      rw [acpiCompareLoop]
      split_ifs with hne hlast
      · apply iff_of_false (by simp)
        intro h
        exact hne (h i le_rfl (by omega))
      · apply iff_of_true rfl
        intro j hle hlt
        rw [show j = i by omega]
        exact not_not.mp hne
      · rw [ih (by omega) (by omega)]
        constructor
        · intro h j hle hlt
          rcases hle.eq_or_lt with rfl | hle
          · exact not_not.mp hne
          · exact h j hle hlt
        · intro h j hle hlt
          exact h j (by omega) hlt

private theorem acpiCompareLoop_eq (header : BitVec 64) :
    acpiCompareLoop memory header signature 4 0 = decide (HasSignature memory signature header) := by
  rw [Bool.eq_iff_iff, acpiCompareLoop_iff rfl (by decide), decide_eq_true_iff, HasSignature]
  simp

private theorem mem_reads_of_mem {offset : Nat} (h : offset ∈ reads) :
    offset ∈ (acpiGetTableLoop table memory signature rounds t reads).2 := by
  induction rounds generalizing t reads with
  | zero => exact h
  | succ rounds ih =>
      rw [acpiGetTableLoop]
      dsimp only
      split_ifs
      · simp [h]
      · apply ih
        simp [h]
      · simp [h]

private theorem length_listedTables :
    (listedTables table).length = (sdtLength table - sizeofSdtHeader) / 8 := by
  rw [listedTables, List.length_map, List.length_range]

private theorem listedTables_drop (hk : k < (sdtLength table - sizeofSdtHeader) / 8) :
    (listedTables table).drop k =
      readUint64 table (sizeofSdtHeader + 8 * k) :: (listedTables table).drop (k + 1) := by
  rw [List.drop_eq_getElem_cons (by rwa [length_listedTables])]
  simp [listedTables]

private theorem acpiGetTableLoop_succ (hheader : sizeofSdtHeader ≤ sdtLength table)
    (hk : 8 * k < sdtLength table - sizeofSdtHeader) :
    acpiGetTableLoop table memory signature (rounds + 1) (8 * k) reads =
      if HasSignature memory signature (readUint64 table (sizeofSdtHeader + 8 * k)) then
        (.returned (readUint64 table (sizeofSdtHeader + 8 * k)),
          reads ++ List.range' 4 4 ++ List.range' (sizeofSdtHeader + 8 * k) 8)
      else acpiGetTableLoop table memory signature rounds (8 * (k + 1))
        (reads ++ List.range' 4 4 ++ List.range' (sizeofSdtHeader + 8 * k) 8) := by
  have hlt := (readUint32 table 4).isLt
  have hentry : (sizeofSdtHeader + 8 * k) % 2 ^ 64 = sizeofSdtHeader + 8 * k := by
    rw [sdtLength, sizeofSdtHeader] at hk
    rw [sizeofSdtHeader]
    omega
  have hnext : (8 * k + 8) % 2 ^ 64 = 8 * (k + 1) := by
    rw [sdtLength, sizeofSdtHeader] at hk
    omega
  rw [acpiGetTableLoop]
  dsimp only
  rw [sdtBound_eq hheader, if_pos hk, hentry, hnext, acpiCompareLoop_eq]
  simp only [decide_eq_true_eq]

private theorem acpiGetTableLoop_end (hheader : sizeofSdtHeader ≤ sdtLength table)
    (hk : ¬8 * k < sdtLength table - sizeofSdtHeader) :
    acpiGetTableLoop table memory signature (rounds + 1) (8 * k) reads =
      (.returned 0, reads ++ List.range' 4 4) := by
  rw [acpiGetTableLoop]
  dsimp only
  rw [sdtBound_eq hheader, if_neg hk]

private theorem whole_of_condition
    (hwhole : (sdtLength table - sizeofSdtHeader) % 8 = 0 ∨
      ∃ listed ∈ (listedTables table).drop k, HasSignature memory signature listed)
    (hk : 8 * k < sdtLength table - sizeofSdtHeader) :
    k < (sdtLength table - sizeofSdtHeader) / 8 := by
  by_contra hge
  rcases hwhole with hrem | ⟨listed, hlisted, -⟩
  · omega
  · rw [List.drop_eq_nil_of_le (by rw [length_listedTables]; omega)] at hlisted
    exact absurd hlisted List.not_mem_nil

private theorem acpiGetTableLoop_inside (hheader : sizeofSdtHeader ≤ sdtLength table)
    (hwhole : (sdtLength table - sizeofSdtHeader) % 8 = 0 ∨
      ∃ listed ∈ (listedTables table).drop k, HasSignature memory signature listed)
    (hreads : ∀ offset ∈ reads, offset < sdtLength table) :
    ∀ offset ∈ (acpiGetTableLoop table memory signature rounds (8 * k) reads).2,
      offset < sdtLength table := by
  induction rounds generalizing k reads with
  | zero => exact hreads
  | succ rounds ih =>
      have hlength : ∀ offset ∈ reads ++ List.range' 4 4, offset < sdtLength table := by
        intro offset hoffset
        rw [sizeofSdtHeader] at hheader
        rw [List.mem_append, List.mem_range'_1] at hoffset
        rcases hoffset with h | h
        · exact hreads offset h
        · omega
      by_cases hk : 8 * k < sdtLength table - sizeofSdtHeader
      · have hlt := whole_of_condition hwhole hk
        have hentry : ∀ offset ∈ reads ++ List.range' 4 4 ++ List.range' (sizeofSdtHeader + 8 * k) 8,
            offset < sdtLength table := by
          intro offset hoffset
          rw [List.mem_append, List.mem_range'_1] at hoffset
          rcases hoffset with h | h
          · exact hlength offset h
          · omega
        rw [acpiGetTableLoop_succ hheader hk]
        split_ifs with hsignature
        · exact hentry
        · apply ih _ hentry
          rw [listedTables_drop hlt, List.exists_mem_cons_iff] at hwhole
          exact hwhole.imp_right fun h => h.resolve_left hsignature
      · rw [acpiGetTableLoop_end hheader hk]
        exact hlength

private theorem acpiGetTableLoop_found (hheader : sizeofSdtHeader ≤ sdtLength table)
    (hwhole : (sdtLength table - sizeofSdtHeader) % 8 = 0 ∨
      ∃ listed ∈ (listedTables table).drop k, HasSignature memory signature listed)
    (hk : k ≤ (sdtLength table - sizeofSdtHeader) / 8)
    (hrounds : (sdtLength table - sizeofSdtHeader) / 8 < k + rounds) :
    (acpiGetTableLoop table memory signature rounds (8 * k) reads).1 =
      .returned ((firstWithSignature memory signature ((listedTables table).drop k)).getD 0) := by
  induction rounds generalizing k reads with
  | zero => omega
  | succ rounds ih =>
      by_cases hk : 8 * k < sdtLength table - sizeofSdtHeader
      · have hlt := whole_of_condition hwhole hk
        rw [acpiGetTableLoop_succ hheader hk]
        rw [listedTables_drop hlt] at hwhole ⊢
        rw [firstWithSignature, List.find?_cons]
        split_ifs with hsignature
        · simp [hsignature]
        · rw [decide_eq_false hsignature]
          apply ih _ hlt (by omega)
          rw [List.exists_mem_cons_iff] at hwhole
          exact hwhole.imp_right fun h => h.resolve_left hsignature
      · rw [acpiGetTableLoop_end hheader hk,
          List.drop_eq_nil_of_le (by rw [length_listedTables]; omega)]
        rfl

/-- Without a table with the signature the part of a pointer at the end is read as well. -/
theorem acpiGetTableLoop_partial (hheader : sizeofSdtHeader ≤ sdtLength table)
    (hrem : (sdtLength table - sizeofSdtHeader) % 8 ≠ 0)
    (hnone : ∀ listed ∈ (listedTables table).drop k, ¬HasSignature memory signature listed)
    (hk : k + rounds = (sdtLength table - sizeofSdtHeader) / 8) :
    ∃ offset ∈ (acpiGetTableLoop table memory signature (rounds + 1) (8 * k) reads).2,
      sdtLength table ≤ offset := by
  induction rounds generalizing k reads with
  | zero =>
      refine ⟨sizeofSdtHeader + 8 * k + 7, ?_, by omega⟩
      rw [acpiGetTableLoop_succ hheader (by omega)]
      split_ifs
      · simp
      · apply mem_reads_of_mem
        simp
  | succ rounds ih =>
      rw [listedTables_drop (by omega), List.forall_mem_cons] at hnone
      rw [acpiGetTableLoop_succ hheader (by omega), if_neg hnone.1]
      exact ih hnone.2 (by omega)

private theorem firstWithSignature_eq_none {headers : List (BitVec 64)} :
    firstWithSignature memory signature headers = none ↔
      ∀ listed ∈ headers, ¬HasSignature memory signature listed := by
  rw [firstWithSignature, List.find?_eq_none]
  simp

/-- The first round reads a pointer even if the length is less than that of the header. -/
theorem header_of_inside
    (hinside : ∀ offset ∈ (acpiGetTable 1 table memory signature).2, offset < sdtLength table) :
    sizeofSdtHeader ≤ sdtLength table := by
  by_contra hshort
  have hbound : 0 < (sdtLength table + 2 ^ 64 - sizeofSdtHeader) % 2 ^ 64 :=
    sdtBound_pos (Nat.lt_of_not_le hshort) (by decide)
  have hread : sizeofSdtHeader ∈ (acpiGetTable 1 table memory signature).2 := by
    rw [acpiGetTable, acpiGetTableLoop]
    dsimp only
    rw [if_pos hbound]
    split_ifs
    · simp [sizeofSdtHeader]
    · apply mem_reads_of_mem
      simp [sizeofSdtHeader]
  have := hinside sizeofSdtHeader hread
  omega

theorem acpiFinds_iff (table : Nat → BitVec 8) (memory : BitVec 64 → BitVec 8)
    (signature : Nat → BitVec 8) :
    AcpiFinds table memory signature ↔ AcpiCondition table memory signature := by
  constructor
  · rintro ⟨hinside, rounds, header, hreturned, hfirst, hnull⟩
    have hheader := header_of_inside (hinside 1)
    refine ⟨hheader, ?_, ?_⟩
    · by_contra hwhole
      push Not at hwhole
      obtain ⟨offset, hread, hle⟩ : ∃ offset ∈ (acpiGetTableLoop table memory signature
          ((sdtLength table - sizeofSdtHeader) / 8 + 1) (8 * 0) []).2, sdtLength table ≤ offset :=
        acpiGetTableLoop_partial hheader hwhole.1 hwhole.2 (Nat.zero_add _)
      exact absurd (hinside _ offset hread) (Nat.not_lt.mpr hle)
    · intro hzero
      have hnone := hnull.mp (hfirst 0 hzero)
      rw [← firstWithSignature_eq_none, hzero] at hnone
      exact absurd hnone (by simp)
  · rintro ⟨hheader, hwhole, hnonnull⟩
    refine ⟨?_, (sdtLength table - sizeofSdtHeader) / 8 + 1,
      (firstWithSignature memory signature (listedTables table)).getD 0, ?_, ?_, ?_⟩
    · intro rounds
      have hinside := @acpiGetTableLoop_inside table memory signature rounds 0 [] hheader hwhole
      exact hinside fun offset h => absurd h List.not_mem_nil
    · have hfound := @acpiGetTableLoop_found table memory signature
        ((sdtLength table - sizeofSdtHeader) / 8 + 1) 0 [] hheader hwhole (Nat.zero_le _) (by omega)
      exact hfound
    · intro first hfirst
      rw [hfirst, Option.getD_some]
    · rw [← firstWithSignature_eq_none]
      cases hfirst : firstWithSignature memory signature (listedTables table) with
      | none => simp
      | some first =>
          have hne : first ≠ 0 := fun hzero => hnonnull (by rw [hfirst, hzero])
          exact iff_of_false hne (by simp)

end Search

end VisualOS.Kernel
