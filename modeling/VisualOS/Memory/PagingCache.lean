import VisualOS.Memory.PagingFlags

/-!
# The cache policy of pages

`paging_set_cache` goes down to the entry of the last level, whose three bits select the policy.
The entries above are written back as they were read.
-/

namespace VisualOS.Kernel

open Framework

/-- The flags of `PageTableFlagBit` that select an entry of the page attribute table. -/
inductive PageTableFlagBit
  | writethrough
  | nocache
  | pat
  deriving DecidableEq, Repr

def PageTableFlagBit.toNat : PageTableFlagBit → Nat
  | writethrough => 3
  | nocache => 4
  | pat => 7

/-- The block for a level above the last, which is written out three times. -/
def pagingPassLevel (table : BitVec 64) (index : BitVec 9) (s : Paging) : BitVec 64 × Paging :=
  let entry := s.read table index
  let s := s.write table index entry
  (pagingGetEntryAddress entry <<< 12, s)

/-- The body of the loop of `paging_set_cache`. -/
def pagingSetCachePage (pagetableL4 address : BitVec 64) (bitPat bitPcd bitPwt : Bool)
    (s : Paging) : Paging :=
  let indexes := pagingGetIndexes address
  let (pagetableL3, s) := pagingPassLevel pagetableL4 indexes.L4_i s
  let (pagetableL2, s) := pagingPassLevel pagetableL3 indexes.L3_i s
  let (pagetableL1, s) := pagingPassLevel pagetableL2 indexes.L2_i s
  let entry := s.read pagetableL1 indexes.L1_i
  let entry := setBit entry PageTableFlagBit.pat.toNat bitPat
  let entry := setBit entry PageTableFlagBit.nocache.toNat bitPcd
  let entry := setBit entry PageTableFlagBit.writethrough.toNat bitPwt
  s.write pagetableL1 indexes.L1_i entry

/-- `pagetableL4` is `s_pagetable_l4`. -/
def pagingSetCache (pagetableL4 virtualAddress pages : BitVec 64) (mode : BitVec 32) (s : Paging) :
    Paging :=
  let bitPat := decide ((mode >>> 2) &&& 0x1#32 ≠ 0)
  let bitPcd := decide ((mode >>> 1) &&& 0x1#32 ≠ 0)
  let bitPwt := decide ((mode >>> 0) &&& 0x1#32 ≠ 0)
  (List.range pages.toNat).foldl (fun s i =>
    pagingSetCachePage pagetableL4 (virtualAddress + BitVec.ofNat 64 i * 4096#64) bitPat bitPcd
      bitPwt s) s

/-- The index into the page attribute table that an entry of the last level selects. -/
def entryPat (entry : BitVec 64) : Nat :=
  4 * (entry.getLsbD PageTableFlagBit.pat.toNat).toNat +
    2 * (entry.getLsbD PageTableFlagBit.nocache.toNat).toNat +
    (entry.getLsbD PageTableFlagBit.writethrough.toNat).toNat

/-- The indices above the last level. -/
def upperIndexes (address : BitVec 64) : List (BitVec 9) :=
  [address.extractLsb' 39 9, address.extractLsb' 30 9, address.extractLsb' 21 9]

/-- The policy of the page of an address, if it has an entry on the last level. -/
def Paging.patIndex (s : Paging) (root address : BitVec 64) : Option Nat :=
  (s.entry root (upperIndexes address) (address.extractLsb' 12 9)).map entryPat

/-! ## One entry -/

/-- What is written on the last level. -/
def cacheEntry (bitPat bitPcd bitPwt : Bool) (entry : BitVec 64) : BitVec 64 :=
  setBit (setBit (setBit entry PageTableFlagBit.pat.toNat bitPat) PageTableFlagBit.nocache.toNat
    bitPcd) PageTableFlagBit.writethrough.toNat bitPwt

section Entry

variable {bitPat bitPcd bitPwt : Bool} {entry : BitVec 64} {i : Nat}

private theorem getLsbD_cacheEntry (hi : i < 64) :
    (cacheEntry bitPat bitPcd bitPwt entry).getLsbD i =
      if i = 3 then bitPwt else if i = 4 then bitPcd else if i = 7 then bitPat
      else entry.getLsbD i := by
  rw [cacheEntry, getLsbD_setBit (by decide) _ hi, getLsbD_setBit (by decide) _ hi,
    getLsbD_setBit (by decide) _ hi]
  rfl

private theorem cacheEntry_cacheEntry (entry : BitVec 64) :
    cacheEntry bitPat bitPcd bitPwt (cacheEntry bitPat bitPcd bitPwt entry) =
      cacheEntry bitPat bitPcd bitPwt entry := by
  apply BitVec.eq_of_getLsbD_eq
  intro i hi
  rw [getLsbD_cacheEntry hi, getLsbD_cacheEntry hi]
  split_ifs <;> rfl

private theorem entryTarget_cacheEntry (entry : BitVec 64) :
    entryTarget (cacheEntry bitPat bitPcd bitPwt entry) = entryTarget entry := by
  apply entryTarget_congr
  intro i hi
  rw [getLsbD_cacheEntry (by omega), if_neg (by omega), if_neg (by omega), if_neg (by omega)]

private theorem entryPat_cacheEntry :
    entryPat (cacheEntry bitPat bitPcd bitPwt entry) =
      4 * bitPat.toNat + 2 * bitPcd.toNat + bitPwt.toNat := by
  rw [entryPat, getLsbD_cacheEntry (by decide), getLsbD_cacheEntry (by decide),
    getLsbD_cacheEntry (by decide)]
  rfl

private theorem mode_bits {mode : BitVec 32} (h : mode.toNat < 8) :
    4 * (decide ((mode >>> 2) &&& 0x1#32 ≠ 0)).toNat +
      2 * (decide ((mode >>> 1) &&& 0x1#32 ≠ 0)).toNat +
      (decide ((mode >>> 0) &&& 0x1#32 ≠ 0)).toNat = mode.toNat := by
  obtain ⟨m, rfl⟩ : ∃ m : Fin 8, mode = BitVec.ofNat 32 m :=
    ⟨⟨mode.toNat, h⟩, by simp⟩
  revert m
  decide

end Entry

/-! ## The walks -/

section Walks

variable {root virtualAddress pages address : BitVec 64} {bitPat bitPcd bitPwt : Bool}
  {s : Paging}

private theorem walkIndexes_upper (address : BitVec 64) :
    walkIndexes address = upperIndexes address ++ [address.extractLsb' 12 9] := rfl

private theorem pagingPassLevel_eq {table : BitVec 64} {index : BitVec 9} {k : BitVec 52}
    (hk : entryTarget (s.memory (pageNumber table) index) = some k) :
    ∃ next, pagingPassLevel table index s = (next, s) ∧ pageNumber next = k := by
  refine ⟨_, ?_, entryLink_of_target _ _ hk⟩
  rw [pagingPassLevel, Paging.read, Paging.write, writeEntry_self]

private theorem pagingSetCachePage_eq {k : BitVec 52}
    (hk : s.table root (upperIndexes address) = some k) :
    pagingSetCachePage root address bitPat bitPcd bitPwt s =
      { s with
        memory := rewriteEntry (cacheEntry bitPat bitPcd bitPwt) s.memory k
          (address.extractLsb' 12 9) } := by
  have hwalk := walkIndexes_eq address
  rw [walkIndexes_upper, upperIndexes, List.cons_append, List.cons_append, List.cons_append,
    List.nil_append] at hwalk
  rw [upperIndexes] at hk
  simp only [List.cons.injEq, and_true] at hwalk
  obtain ⟨h₄, h₃, h₂, h₁⟩ := hwalk
  rw [h₄, h₃, h₂] at hk
  rw [h₁, pagingSetCachePage]
  generalize pagingGetIndexes address = indexes at hk ⊢
  rw [Paging.table, descend, Option.bind_eq_some_iff] at hk
  obtain ⟨k₃, hk₃, hk⟩ := hk
  rw [descend, Option.bind_eq_some_iff] at hk
  obtain ⟨k₂, hk₂, hk⟩ := hk
  rw [descend, Option.bind_eq_some_iff] at hk
  obtain ⟨k₁, hk₁, hk⟩ := hk
  obtain ⟨table₃, hlevel₃, rfl⟩ := pagingPassLevel_eq hk₃
  obtain ⟨table₂, hlevel₂, rfl⟩ := pagingPassLevel_eq hk₂
  obtain ⟨table₁, hlevel₁, rfl⟩ := pagingPassLevel_eq hk₁
  rw [← Option.some.inj hk]
  dsimp only
  rw [hlevel₃]
  dsimp only
  rw [hlevel₂]
  dsimp only
  rw [hlevel₁]
  rfl

/-- The entries of the last level over some addresses. -/
def leafCells (root : BitVec 64) (addresses : List (BitVec 64)) (s : Paging) :
    Set (BitVec 52 × BitVec 9) :=
  {c | ∃ address ∈ addresses, s.table root (upperIndexes address) = some c.1 ∧
    c.2 = address.extractLsb' 12 9}

private theorem pagingSetCachePage_foldl {addresses : List (BitVec 64)}
    (hmapped : ∀ address ∈ addresses, ∃ page, translate s.memory root address = some page) :
    ∃ memory, addresses.foldl
        (fun s address => pagingSetCachePage root address bitPat bitPcd bitPwt s) s =
          { s with memory := memory } ∧
      Rewritten (cacheEntry bitPat bitPcd bitPwt) (leafCells root addresses s) s.memory memory := by
  induction addresses generalizing s with
  | nil => exact ⟨s.memory, rfl, (Rewritten.refl _ _).congr (by simp [leafCells])⟩
  | cons address addresses ih =>
      rw [List.forall_mem_cons] at hmapped
      obtain ⟨⟨page, hpage⟩, hrest⟩ := hmapped
      obtain ⟨k, hk⟩ : ∃ k, s.table root (upperIndexes address) = some k :=
        descend_of_isPrefix hpage (List.prefix_append _ _)
      have hentry := Rewritten.entry (cacheEntry bitPat bitPcd bitPwt) s.memory k
        (address.extractLsb' 12 9)
      have hdescend : ∀ path, descend entryTarget (rewriteEntry (cacheEntry bitPat bitPcd bitPwt)
          s.memory k (address.extractLsb' 12 9)) (pageNumber root) path =
            descend entryTarget s.memory (pageNumber root) path :=
        fun path => hentry.descend_eq fun _ _ _ => entryTarget_cacheEntry _
      rw [List.foldl_cons, pagingSetCachePage_eq hk]
      obtain ⟨memory, hfold, hmemory⟩ := ih (s := { s with memory := rewriteEntry _ s.memory k _ })
        (fun a ha => by rw [translate, hdescend]; exact hrest a ha)
      refine ⟨memory, hfold, (hentry.trans cacheEntry_cacheEntry hmemory).congr ?_⟩
      rintro ⟨k', i⟩
      simp only [leafCells, Paging.table, hdescend, Set.mem_union, Set.mem_singleton_iff,
        Set.mem_ofPred_eq, List.exists_mem_cons_iff, Prod.mk.injEq]
      apply or_congr_left
      rw [show descend entryTarget s.memory (pageNumber root) (upperIndexes address) = some k from hk,
        Option.some.injEq, eq_comm (a := k')]

/-- The end of the walk over a page of the range. -/
def AtLeaf (virtualAddress pages : BitVec 64) (cell : List (BitVec 9)) : Prop :=
  ∃ i < pages.toNat, cell = walkIndexes (virtualAddress + BitVec.ofNat 64 i * 4096#64)

private theorem pagingSetCache_entries {mode : BitVec 32} (htree : s.Tree root)
    (hmapped : RangeMapped root virtualAddress pages s) :
    EntriesRewritten root (cacheEntry (decide ((mode >>> 2) &&& 0x1#32 ≠ 0))
        (decide ((mode >>> 1) &&& 0x1#32 ≠ 0)) (decide ((mode >>> 0) &&& 0x1#32 ≠ 0)))
      (AtLeaf virtualAddress pages) s (pagingSetCache root virtualAddress pages mode s) := by
  generalize haddresses : (List.range pages.toNat).map
    (fun i => virtualAddress + BitVec.ofNat 64 i * 4096#64) = addresses
  have hmem : ∀ address, address ∈ addresses ↔ ∃ i < pages.toNat,
      virtualAddress + BitVec.ofNat 64 i * 4096#64 = address := by
    intro address
    rw [← haddresses]
    simp
  obtain ⟨memory, hfold, hmemory⟩ := pagingSetCachePage_foldl (s := s)
    (show ∀ address ∈ addresses, ∃ page, translate s.memory root address = some page by
      intro address haddress
      obtain ⟨i, hi, rfl⟩ := (hmem address).mp haddress
      exact hmapped i hi)
  rw [← haddresses, List.foldl_map] at hfold
  rw [pagingSetCache, hfold]
  refine EntriesRewritten.of_rewritten hmemory (fun _ _ _ => entryTarget_cacheEntry _) ?_ rfl rfl
  intro path index k hpath hk
  constructor
  · rintro ⟨address, haddress, htable, rfl⟩
    obtain ⟨i, hi, rfl⟩ := (hmem address).mp haddress
    refine ⟨i, hi, ?_⟩
    rw [htree path _ k hpath le_rfl hk htable]
    rfl
  · rintro ⟨i, hi, hwalk⟩
    rw [walkIndexes_upper] at hwalk
    obtain ⟨rfl, hindex⟩ := List.append_inj' hwalk rfl
    exact ⟨_, (hmem _).mpr ⟨i, hi, rfl⟩, hk, List.singleton_inj.mp hindex⟩

private theorem EntriesRewritten.effective_of_keeps {t : Paging} {f : BitVec 64 → BitVec 64}
    {cells : List (BitVec 9) → Prop} {flag : PageDirectoryFlagBit}
    (h : EntriesRewritten root f cells s t)
    (hkeeps : ∀ entry, (f entry).getLsbD flag.toNat = entry.getLsbD flag.toNat) :
    t.Effective root flag address ↔ s.Effective root flag address := by
  have hflag : ∀ path index, path ++ [index] <+: walkIndexes address →
      (t.HasFlag root flag path index ↔ s.HasFlag root flag path index) := by
    intro path index hpath
    have hlength := length_le_of_concat_isPrefix hpath
    rw [Paging.HasFlag, Paging.HasFlag]
    by_cases hcell : cells (path ++ [index])
    · rw [h.inside path index hlength hcell]
      simp only [Option.map_eq_some_iff, exists_exists_and_eq_and, hkeeps]
    · rw [h.outside path index hlength hcell]
  constructor
  · intro heffective path index hpath
    exact (hflag path index hpath).mp (heffective path index hpath)
  · intro heffective path index hpath
    exact (hflag path index hpath).mpr (heffective path index hpath)

private theorem EntriesRewritten.wellFormedTree_of_leaf {t : Paging} {f : BitVec 64 → BitVec 64}
    (h : EntriesRewritten root f (AtLeaf virtualAddress pages) s t)
    (htree : s.WellFormedTree root) : t.WellFormedTree root := by
  refine ⟨h.tree htree.1, ?_⟩
  intro path index entry hpath hentry
  rw [h.outside path index hpath.le] at hentry
  · exact htree.2 path index entry hpath hentry
  · rintro ⟨i, hi, hwalk⟩
    have hlength := congrArg List.length hwalk
    rw [List.length_append, List.length_singleton,
      show (walkIndexes _).length = 4 from rfl] at hlength
    omega

end Walks

/-! ## The policy of every page -/

/-- The pages of the range have the policy, everything else is as before. -/
structure CacheSet (root virtualAddress pages : BitVec 64) (mode : BitVec 32) (s t : Paging) :
    Prop where
  range : ∀ i < pages.toNat,
    t.patIndex root (virtualAddress + BitVec.ofNat 64 i * 4096#64) = some mode.toNat
  other : ∀ address, OutsideRange virtualAddress pages address →
    t.patIndex root address = s.patIndex root address
  translate : ∀ address, translate t.memory root address = translate s.memory root address
  writable : ∀ address, t.Effective root .writable address ↔ s.Effective root .writable address
  tree : t.WellFormedTree root

theorem paging_set_cache_exact {root virtualAddress pages : BitVec 64} {mode : BitVec 32}
    {s : Paging} (htree : s.WellFormedTree root) (hmapped : RangeMapped root virtualAddress pages s)
    (hmode : mode.toNat < 8) :
    CacheSet root virtualAddress pages mode s
      (pagingSetCache root virtualAddress pages mode s) := by
  have h : EntriesRewritten root _ (AtLeaf virtualAddress pages) s
      (pagingSetCache root virtualAddress pages mode s) := pagingSetCache_entries htree.1 hmapped
  have hpat := mode_bits hmode
  generalize decide ((mode >>> 2) &&& 0x1#32 ≠ 0) = bitPat at h hpat
  generalize decide ((mode >>> 1) &&& 0x1#32 ≠ 0) = bitPcd at h hpat
  generalize decide ((mode >>> 0) &&& 0x1#32 ≠ 0) = bitPwt at h hpat
  generalize pagingSetCache root virtualAddress pages mode s = t at h ⊢
  constructor
  · intro i hi
    have hleaf : OnRange virtualAddress pages
        (upperIndexes (virtualAddress + BitVec.ofNat 64 i * 4096#64) ++
          [(virtualAddress + BitVec.ofNat 64 i * 4096#64).extractLsb' 12 9]) :=
      ⟨i, hi, List.prefix_refl _⟩
    obtain ⟨entry, hentry⟩ := hleaf.entry hmapped
    rw [Paging.patIndex, h.inside _ _ le_rfl ⟨i, hi, rfl⟩, hentry, Option.map_some, Option.map_some,
      entryPat_cacheEntry, hpat]
  · intro address houtside
    rw [Paging.patIndex, Paging.patIndex, h.outside _ _ le_rfl]
    rintro ⟨i, hi, hwalk⟩
    exact houtside i hi (walkIndexes_eq_iff.mp hwalk)
  · intro address
    exact h.tables _
  · intro address
    apply h.effective_of_keeps
    intro entry
    exact getLsbD_cacheEntry (by decide)
  · exact h.wellFormedTree_of_leaf htree

theorem paging_set_cache_page :
    CacheSet 0x1000 0x1000 1 5 writablePages (pagingSetCache 0x1000 0x1000 1 5 writablePages) :=
  paging_set_cache_exact writablePages_wellFormedTree writablePages_rangeMapped (by decide)

end VisualOS.Kernel
