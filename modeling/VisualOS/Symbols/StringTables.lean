import VisualOS.Memory.PageframeRanges
import VisualOS.Symbols.Symbol

/-!
# The string tables of the kernel file

`symbol_init` takes the string table at `e_shstrndx` for the names of the sections, and any other
one that it comes across for the names of the symbols, so that the last one stays.  `sh_link` of the
symbol table, which says where the names are, is not read.
-/

namespace VisualOS.Kernel

namespace KernelFile

variable (file : KernelFile)

def IsStringTable (i : Nat) : Prop := (file.sectionHeader i).shType = elfSectionHeaderTypeStrtab

instance (i : Nat) : Decidable (file.IsStringTable i) := inferInstanceAs (Decidable (_ = _))

/-- Where the section is in memory, and its size. -/
def place (i : Nat) : BitVec 64 × BitVec 64 :=
  (file.kernelHeader + (file.sectionHeader i).shOffset, (file.sectionHeader i).shSize)

/-- The last of the first `n` sections that is a string table, but not the one at `e_shstrndx`. -/
def lastStringTable (n : Nat) : Option Nat :=
  ((List.range n).filter fun i => file.IsStringTable i ∧ file.header.eShstrndx.toNat ≠ i).getLast?

end KernelFile

/-- `symbol_strings` and its size. -/
def SymbolTableInformation.symbolStringTable (table : SymbolTableInformation) :
    BitVec 64 × BitVec 64 := (table.symbolStrings, table.symbolStringsSize)

/-- `section_strings` and its size. -/
def SymbolTableInformation.sectionStringTable (table : SymbolTableInformation) :
    BitVec 64 × BitVec 64 := (table.sectionStrings, table.sectionStringsSize)

/-- What the loop has found in the first `n` sections. -/
structure ScannedSections (file : KernelFile) (n : Nat) (table : SymbolTableInformation) :
    Prop where
  symbolStrings : table.symbolStringTable = ((file.lastStringTable n).map file.place).getD (0, 0)
  sectionStrings : table.sectionStringTable =
    if file.header.eShstrndx.toNat < n ∧ file.IsStringTable file.header.eShstrndx.toNat then
      file.place file.header.eShstrndx.toNat
    else (0, 0)

variable {file : KernelFile} {s t : SymbolState} {n i : Nat}

/-! ## One section -/

private theorem lastStringTable_succ_of_pos
    (h : file.IsStringTable n ∧ file.header.eShstrndx.toNat ≠ n) :
    file.lastStringTable (n + 1) = some n := by
  rw [KernelFile.lastStringTable, List.range_succ, List.filter_append,
    List.filter_cons_of_pos (by simpa using h)]
  exact List.getLast?_concat

private theorem lastStringTable_succ_of_neg
    (h : ¬ (file.IsStringTable n ∧ file.header.eShstrndx.toNat ≠ n)) :
    file.lastStringTable (n + 1) = file.lastStringTable n := by
  rw [KernelFile.lastStringTable, List.range_succ, List.filter_append,
    List.filter_cons_of_neg (by simpa using h), List.filter_nil, List.append_nil]
  rfl

private theorem reserveSize_table {pointer size : BitVec 64}
    (h : s.reserveSize pointer size = some t) :
    t.table = s.table ∧ t.allocator.mutex = s.allocator.mutex := by
  rw [SymbolState.reserveSize, Option.bind_eq_bind, Option.bind_eq_some_iff] at h
  obtain ⟨allocator, hreserve, ht⟩ := h
  cases ht
  exact ⟨rfl, (markFrames_marked hreserve).mutex⟩

private theorem reserveSize_returns (pointer size : BitVec 64)
    (hfree : s.allocator.mutex.getLsbD PageframeMutexBit.lock.toNat = false) :
    ∃ t, s.reserveSize pointer size = some t := by
  obtain ⟨allocator, hmark, -⟩ :=
    markFrames_spec .reserved pointer.toNat (nearestPage size.toNat) hfree
  refine ⟨{ s with allocator }, ?_⟩
  rw [SymbolState.reserveSize, pageframeReserveSize, pageframeReserve, hmark]
  rfl

/-- What the section changes in the table. -/
def sectionTable (file : KernelFile) (table : SymbolTableInformation) (i : Nat) :
    SymbolTableInformation :=
  if (file.sectionHeader i).shType = elfSectionHeaderTypeSymtab then
    { table with
      symbolEntries := (file.place i).1
      symbolEntriesNum := (file.place i).2 / (file.sectionHeader i).shEntsize }
  else if file.IsStringTable i then
    if file.header.eShstrndx.toNat = i then
      { table with sectionStrings := (file.place i).1, sectionStringsSize := (file.place i).2 }
    else { table with symbolStrings := (file.place i).1, symbolStringsSize := (file.place i).2 }
  else table

private theorem symbolSection_some (h : symbolSection file s i = some t) :
    t.table = sectionTable file s.table i ∧ t.allocator.mutex = s.allocator.mutex ∧
      ((file.sectionHeader i).shType = elfSectionHeaderTypeSymtab →
        (file.sectionHeader i).shEntsize ≠ 0) := by
  rw [symbolSection] at h
  rw [sectionTable]
  dsimp only at h
  split at h
  · rename_i hsymtab
    rw [if_pos hsymtab]
    split at h
    · exact absurd h (by simp)
    · rename_i hentsize
      rw [Option.bind_eq_bind, Option.bind_eq_some_iff] at h
      obtain ⟨u, hu, ht⟩ := h
      cases ht
      obtain ⟨htable, hmutex⟩ := reserveSize_table hu
      rw [htable]
      exact ⟨rfl, hmutex, fun _ => hentsize⟩
  · rename_i hsymtab
    rw [if_neg hsymtab]
    split at h
    · rename_i hstrtab
      rw [if_pos (show file.IsStringTable i from hstrtab)]
      rw [Option.bind_eq_bind, Option.bind_eq_some_iff] at h
      obtain ⟨u, hu, ht⟩ := h
      obtain ⟨htable, hmutex⟩ := reserveSize_table hu
      split at ht
      · rename_i hnames
        cases ht
        rw [if_pos hnames, htable]
        exact ⟨rfl, hmutex, fun h => absurd h hsymtab⟩
      · rename_i hnames
        cases ht
        rw [if_neg hnames, htable]
        exact ⟨rfl, hmutex, fun h => absurd h hsymtab⟩
    · rename_i hstrtab
      cases h
      rw [if_neg (show ¬ file.IsStringTable i from hstrtab)]
      exact ⟨rfl, rfl, fun h => absurd h hsymtab⟩

private theorem symbolSection_returns
    (hfree : s.allocator.mutex.getLsbD PageframeMutexBit.lock.toNat = false)
    (hentsize : (file.sectionHeader i).shType = elfSectionHeaderTypeSymtab →
      (file.sectionHeader i).shEntsize ≠ 0) : ∃ t, symbolSection file s i = some t := by
  obtain ⟨u, hu⟩ := reserveSize_returns (file.kernelHeader + (file.sectionHeader i).shOffset)
    (file.sectionHeader i).shSize hfree
  rw [symbolSection]
  dsimp only
  split
  · rename_i hsymtab
    rw [if_neg (hentsize hsymtab), hu]
    exact ⟨_, rfl⟩
  · split
    · rw [hu, Option.bind_eq_bind, Option.bind_some]
      split
      · exact ⟨_, rfl⟩
      · exact ⟨_, rfl⟩
    · exact ⟨s, rfl⟩

private theorem names_succ_iff (h : ¬ (file.IsStringTable n ∧ file.header.eShstrndx.toNat = n)) :
    file.header.eShstrndx.toNat < n + 1 ∧ file.IsStringTable file.header.eShstrndx.toNat ↔
      file.header.eShstrndx.toNat < n ∧ file.IsStringTable file.header.eShstrndx.toNat := by
  constructor
  · rintro ⟨hlt, htable⟩
    refine ⟨Nat.lt_of_le_of_ne (Nat.le_of_lt_succ hlt) ?_, htable⟩
    intro heq
    rw [heq] at htable
    exact h ⟨htable, heq⟩
  · exact fun h => ⟨Nat.lt_succ_of_lt h.1, h.2⟩

private theorem ScannedSections.step {table : SymbolTableInformation}
    (h : ScannedSections file n table) :
    ScannedSections file (n + 1) (sectionTable file table n) := by
  by_cases hstrtab : file.IsStringTable n
  · have hsymtab : (file.sectionHeader n).shType ≠ elfSectionHeaderTypeSymtab := by
      rw [show (file.sectionHeader n).shType = elfSectionHeaderTypeStrtab from hstrtab]
      decide
    rw [sectionTable, if_neg hsymtab, if_pos hstrtab]
    by_cases hnames : file.header.eShstrndx.toNat = n
    · rw [if_pos hnames]
      constructor
      · rw [lastStringTable_succ_of_neg fun h => h.2 hnames]
        exact h.symbolStrings
      · rw [hnames, if_pos ⟨Nat.lt_succ_self n, hstrtab⟩]
        rfl
    · rw [if_neg hnames]
      constructor
      · rw [lastStringTable_succ_of_pos ⟨hstrtab, hnames⟩]
        rfl
      · rw [if_congr (names_succ_iff fun h => hnames h.2) rfl rfl]
        exact h.sectionStrings
  · have hkept : (sectionTable file table n).symbolStringTable = table.symbolStringTable ∧
        (sectionTable file table n).sectionStringTable = table.sectionStringTable := by
      rw [sectionTable, if_neg hstrtab]
      split
      · exact ⟨rfl, rfl⟩
      · exact ⟨rfl, rfl⟩
    constructor
    · rw [lastStringTable_succ_of_neg fun h => hstrtab h.1, hkept.1]
      exact h.symbolStrings
    · rw [if_congr (names_succ_iff fun h => hstrtab h.1) rfl rfl, hkept.2]
      exact h.sectionStrings

/-! ## All sections -/

/-- The sizes that the source divides by are not zero. -/
def EntrySizes (file : KernelFile) (n : Nat) : Prop :=
  ∀ i < n, (file.sectionHeader i).shType = elfSectionHeaderTypeSymtab →
    (file.sectionHeader i).shEntsize ≠ 0

private theorem sections_scanned (hstart : s.table.symbolStringTable = (0, 0))
    (hstart' : s.table.sectionStringTable = (0, 0))
    (h : (List.range n).foldlM (symbolSection file) s = some t) :
    ScannedSections file n t.table ∧ t.allocator.mutex = s.allocator.mutex ∧ EntrySizes file n := by
  induction n generalizing t with
  | zero =>
      cases h
      exact ⟨⟨hstart, by simpa using hstart'⟩, rfl, fun i hi => absurd hi (Nat.not_lt_zero i)⟩
  | succ n ih =>
      rw [List.range_succ, List.foldlM_append, Option.bind_eq_bind, Option.bind_eq_some_iff] at h
      obtain ⟨u, hu, ht⟩ := h
      obtain ⟨hscanned, hmutex, hsizes⟩ := ih hu
      simp only [List.foldlM_cons, List.foldlM_nil, bind_pure] at ht
      obtain ⟨htable, hmutex', hentsize⟩ := symbolSection_some ht
      refine ⟨htable ▸ hscanned.step, hmutex'.trans hmutex, ?_⟩
      intro i hi
      rcases Nat.lt_succ_iff_lt_or_eq.mp hi with hlt | rfl
      · exact hsizes i hlt
      · exact hentsize

private theorem sections_return (hsizes : EntrySizes file n)
    (hfree : s.allocator.mutex.getLsbD PageframeMutexBit.lock.toNat = false) :
    ∃ t, (List.range n).foldlM (symbolSection file) s = some t ∧
      t.allocator.mutex = s.allocator.mutex := by
  induction n with
  | zero => exact ⟨s, rfl, rfl⟩
  | succ n ih =>
      obtain ⟨u, hu, hmutex⟩ := ih fun i hi => hsizes i (Nat.lt_succ_of_lt hi)
      rw [← hmutex] at hfree
      obtain ⟨t, ht⟩ := symbolSection_returns hfree (hsizes n (Nat.lt_succ_self n))
      refine ⟨t, ?_, (symbolSection_some ht).2.1.trans hmutex⟩
      rw [List.range_succ, List.foldlM_append, hu, Option.bind_eq_bind, Option.bind_some]
      simp only [List.foldlM_cons, List.foldlM_nil, bind_pure, ht]

private theorem symbolSections_some {allocator : Pageframe}
    (h : symbolSections file ⟨{}, allocator⟩ = some t) :
    ScannedSections file file.header.eShnum.toNat t.table ∧
      EntrySizes file file.header.eShnum.toNat := by
  simp only [symbolSections, Option.bind_eq_bind, Option.bind_eq_some_iff] at h
  obtain ⟨u, hu, v, hv, h⟩ := h
  have htable := (reserveSize_table hv).1.trans (reserveSize_table hu).1
  obtain ⟨hscanned, -, hsizes⟩ := sections_scanned (by rw [htable]; rfl) (by rw [htable]; rfl) h
  exact ⟨hscanned, hsizes⟩

private theorem symbolSections_returns {allocator : Pageframe}
    (hsizes : EntrySizes file file.header.eShnum.toNat)
    (hfree : allocator.mutex.getLsbD PageframeMutexBit.lock.toNat = false) :
    ∃ t, symbolSections file ⟨{}, allocator⟩ = some t := by
  obtain ⟨u, hu⟩ := reserveSize_returns (s := ⟨{}, allocator⟩) file.kernelHeader
    (file.header.eEhsize.setWidth 64) hfree
  have hfreeU : u.allocator.mutex.getLsbD PageframeMutexBit.lock.toNat = false := by
    rw [(reserveSize_table hu).2]
    exact hfree
  obtain ⟨v, hv⟩ := reserveSize_returns file.sectionHeaders
    (file.header.eShnum.setWidth 64 * file.header.eShentsize.setWidth 64) hfreeU
  have hfreeV : v.allocator.mutex.getLsbD PageframeMutexBit.lock.toNat = false := by
    rw [(reserveSize_table hv).2]
    exact hfreeU
  simp only [symbolSections, hu, hv, Option.bind_eq_bind, Option.bind_some]
  have hreturn (table : SymbolTableInformation) :=
    sections_return (s := ⟨table, v.allocator⟩) hsizes hfreeV
  exact (hreturn _).imp fun t ht => ht.1

private theorem symbolInit_some {rounds : Nat} {cells : Nat → BitVec 60 → SymbolMap}
    {array : SymbolArray} (h : symbolInit rounds file cells s = some (t, array)) :
    ∃ u, symbolSections file s = some u ∧
      t.table.symbolStringTable = u.table.symbolStringTable ∧
      t.table.sectionStringTable = u.table.sectionStringTable := by
  simp only [symbolInit, Option.bind_eq_bind, Option.bind_eq_some_iff] at h
  obtain ⟨u, hu, ⟨symbolMap, allocator⟩, -, array', -, ht⟩ := h
  cases ht
  exact ⟨u, hu, rfl, rfl⟩

/-! ## The right tables -/

/-- The names of the symbols are where `sh_link` of the symbol table says, those of the sections
at `e_shstrndx`. -/
def RightStringTables (file : KernelFile) (symtab : Nat) (table : SymbolTableInformation) : Prop :=
  table.symbolStringTable = file.place (file.sectionHeader symtab).shLink.toNat ∧
    table.sectionStringTable = file.place file.header.eShstrndx.toNat

/-- The string table for the symbols is the last one in the file, leaving out the one for the
sections. -/
structure LinkedTableLast (file : KernelFile) (symtab : Nat) : Prop where
  entsize : (file.sectionHeader symtab).shEntsize ≠ 0
  linked : ((file.lastStringTable file.header.eShnum.toNat).map file.place).getD (0, 0) =
    file.place (file.sectionHeader symtab).shLink.toNat
  names : file.header.eShstrndx.toNat < file.header.eShnum.toNat ∧
      file.IsStringTable file.header.eShstrndx.toNat ∨
    file.place file.header.eShstrndx.toNat = (0, 0)

private theorem ScannedSections.rightStringTables_iff {symtab : Nat}
    {table : SymbolTableInformation} (h : ScannedSections file file.header.eShnum.toNat table)
    (hentsize : (file.sectionHeader symtab).shEntsize ≠ 0) :
    RightStringTables file symtab table ↔ LinkedTableLast file symtab := by
  rw [RightStringTables, h.symbolStrings, h.sectionStrings]
  constructor
  · rintro ⟨hlinked, hnames⟩
    refine ⟨hentsize, hlinked, ?_⟩
    split at hnames
    · exact .inl ‹_›
    · exact .inr hnames.symm
  · intro hlast
    refine ⟨hlast.linked, ?_⟩
    rcases hlast.names with hnames | hnull
    · rw [if_pos hnames]
    · rw [hnull, ite_self]

theorem symbolInit_rightStringTables_iff (file : KernelFile) (symtab : Nat) (allocator : Pageframe)
    (hfree : allocator.mutex.getLsbD PageframeMutexBit.lock.toNat = false)
    (hsymtab : ∀ i < file.header.eShnum.toNat,
      (file.sectionHeader i).shType = elfSectionHeaderTypeSymtab ↔ i = symtab)
    (hin : symtab < file.header.eShnum.toNat) :
    ((∃ t, symbolSections file ⟨{}, allocator⟩ = some t ∧ RightStringTables file symtab t.table) ↔
      LinkedTableLast file symtab) ∧
    ∀ rounds cells t array, symbolInit rounds file cells ⟨{}, allocator⟩ = some (t, array) →
      (RightStringTables file symtab t.table ↔ LinkedTableLast file symtab) := by
  have hsome {t : SymbolState} (ht : symbolSections file ⟨{}, allocator⟩ = some t) :
      RightStringTables file symtab t.table ↔ LinkedTableLast file symtab := by
    obtain ⟨hscanned, hsizes⟩ := symbolSections_some ht
    exact hscanned.rightStringTables_iff (hsizes symtab hin ((hsymtab symtab hin).mpr rfl))
  constructor
  · constructor
    · rintro ⟨t, ht, hright⟩
      exact (hsome ht).mp hright
    · intro hlast
      have hsizes : EntrySizes file file.header.eShnum.toNat := by
        intro i hi htype
        rw [(hsymtab i hi).mp htype]
        exact hlast.entsize
      obtain ⟨t, ht⟩ := symbolSections_returns hsizes hfree
      exact ⟨t, ht, (hsome ht).mpr hlast⟩
  · intro rounds cells t array h
    obtain ⟨u, hu, hsymbols, hsections⟩ := symbolInit_some h
    rw [← hsome hu, RightStringTables, RightStringTables, hsymbols, hsections]

/-- A kernel file with these sections. -/
def fileWithSections (sections : List Elf64SectionHeader) (shstrndx : BitVec 16) : KernelFile where
  kernelHeader := 0x10000
  kernelOffset := 0
  header := ⟨0x4000, 64, 64, BitVec.ofNat 16 sections.length, shstrndx⟩
  sectionAt := fun p => sections.getD ((p - 0x14000).toNat / 64) ⟨0, 0, 0, 0, 0, 0⟩
  symbolAt := fun _ => ⟨0, 0, 0⟩

/-- An allocator without frames. -/
def noFrames : Pageframe := ⟨0, 0, 0, ⟨fun _ => 0, 0⟩, 0, 0⟩

/-- `.symtab`, `.strtab` and `.shstrtab`, in the order of the usual linker. -/
def usualFile : KernelFile := fileWithSections
  [⟨0, 0, 0, 0, 0, 0⟩, ⟨1, 2, 0x1000, 0x480, 2, 24⟩, ⟨9, 3, 0x1480, 0x200, 0, 0⟩,
    ⟨17, 3, 0x1680, 0x40, 0, 0⟩] 3

private theorem linkedTableLast_usualFile : LinkedTableLast usualFile 1 :=
  ⟨by decide, by decide, .inl (by decide)⟩

theorem rightStringTables_usualFile :
    ∃ t, symbolSections usualFile ⟨{}, noFrames⟩ = some t ∧ RightStringTables usualFile 1 t.table :=
  (symbolInit_rightStringTables_iff usualFile 1 noFrames (by decide) (by decide) (by decide)).1.mpr
    linkedTableLast_usualFile

/-- One string table for the names of the symbols and of the sections. -/
def mergedFile : KernelFile := fileWithSections
  [⟨0, 0, 0, 0, 0, 0⟩, ⟨1, 2, 0x1000, 0x480, 2, 24⟩, ⟨9, 3, 0x1480, 0x240, 0, 0⟩] 2

theorem not_rightStringTables_mergedFile :
    ¬ ∃ t, symbolSections mergedFile ⟨{}, noFrames⟩ = some t ∧
      RightStringTables mergedFile 1 t.table := by
  rintro ⟨t, ht, hright⟩
  have hlast := ((symbolSections_some ht).1.rightStringTables_iff (by decide)).mp hright
  exact absurd hlast.linked (by decide)

end VisualOS.Kernel
