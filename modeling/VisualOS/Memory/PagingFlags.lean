import VisualOS.Memory.PagingAttribute
import VisualOS.Memory.PagingRange

/-!
# What setting an attribute reaches

An entry above the last level belongs to all the pages under it, so that clearing an attribute over
a range takes it from every page that shares a top-level entry with the range.  The number 63 does
not fit the constant that `SET_BIT` shifts, so that `PAGE_DIRECTORY_NOEXECUTE` stands for the upper
33 bits of an entry.
-/

namespace VisualOS.Kernel

open Framework

namespace Paging

/-- The entry at the end of a path has the attribute. -/
def HasFlag (s : Paging) (root : BitVec 64) (flag : PageDirectoryFlagBit) (path : List (BitVec 9))
    (index : BitVec 9) : Prop :=
  ∃ entry, s.entry root path index = some entry ∧ entry.getLsbD flag.toNat = true

/-- The entries of all four levels over a page have the attribute. -/
def Effective (s : Paging) (root : BitVec 64) (flag : PageDirectoryFlagBit) (address : BitVec 64) :
    Prop :=
  ∀ path index, path ++ [index] <+: walkIndexes address → s.HasFlag root flag path index

end Paging

/-- The address is in no page of the range. -/
def OutsideRange (virtualAddress pages address : BitVec 64) : Prop :=
  ∀ i < pages.toNat, address.extractLsb' 12 36 ≠
    (virtualAddress + BitVec.ofNat 64 i * 4096#64).extractLsb' 12 36

/-- The index of the top-level entry over an address. -/
def topIndex (address : BitVec 64) : BitVec 9 := address.extractLsb' 39 9

/-! ## Clearing an attribute -/

section Clear

variable {root virtualAddress pages address : BitVec 64} {s t : Paging}
  {flag : PageDirectoryFlagBit}

private theorem topIndex_isPrefix (address : BitVec 64) :
    [topIndex address] <+: walkIndexes address := by
  rw [walkIndexes, List.cons_prefix_cons]
  exact ⟨rfl, List.nil_prefix⟩

private theorem topIndex_eq {address' : BitVec 64} {cell : List (BitVec 9)} (hne : cell ≠ [])
    (h : cell <+: walkIndexes address) (h' : cell <+: walkIndexes address') :
    topIndex address = topIndex address' := by
  cases cell with
  | nil => exact absurd rfl hne
  | cons index cell =>
      rw [walkIndexes, List.cons_prefix_cons] at h h'
      exact h.1.symm.trans h'.1

private theorem EntriesRewritten.effective_iff (hflag : flag.toNat < 31)
    (h : EntriesRewritten root (fun entry => setBit entry flag.toNat false)
      (OnRange virtualAddress pages) s t) :
    t.Effective root flag address ↔ s.Effective root flag address ∧ ∀ i < pages.toNat,
      topIndex address ≠ topIndex (virtualAddress + BitVec.ofNat 64 i * 4096#64) := by
  constructor
  · intro heffective
    have houtside : ∀ path index, path ++ [index] <+: walkIndexes address →
        ¬OnRange virtualAddress pages (path ++ [index]) := by
      intro path index hprefix hcell
      obtain ⟨entry, hentry, hset⟩ := heffective path index hprefix
      rw [h.inside path index (length_le_of_concat_isPrefix hprefix) hcell,
        Option.map_eq_some_iff] at hentry
      obtain ⟨old, -, rfl⟩ := hentry
      rw [getLsbD_setBit hflag false (by omega), if_pos rfl] at hset
      exact absurd hset (by decide)
    constructor
    · intro path index hprefix
      rw [Paging.HasFlag, ← h.outside path index (length_le_of_concat_isPrefix hprefix)
        (houtside path index hprefix)]
      exact heffective path index hprefix
    · intro i hi htop
      apply houtside [] (topIndex address) (topIndex_isPrefix address)
      exact ⟨i, hi, htop ▸ topIndex_isPrefix _⟩
  · rintro ⟨heffective, htop⟩ path index hprefix
    have hcell : ¬OnRange virtualAddress pages (path ++ [index]) := by
      rintro ⟨i, hi, hrange⟩
      exact htop i hi (topIndex_eq (by simp) hprefix hrange)
    rw [Paging.HasFlag, h.outside path index (length_le_of_concat_isPrefix hprefix) hcell]
    exact heffective path index hprefix

/-- The attribute is taken from the pages of the range and from no other page that is mapped. -/
structure ClearedLocally (root virtualAddress pages : BitVec 64) (flag : PageDirectoryFlagBit)
    (s t : Paging) : Prop where
  cleared : ∀ i < pages.toNat,
    ¬t.Effective root flag (virtualAddress + BitVec.ofNat 64 i * 4096#64)
  kept : ∀ address, translate s.memory root address ≠ none →
    OutsideRange virtualAddress pages address →
      (t.Effective root flag address ↔ s.Effective root flag address)

/-- No mapped page outside of the range that has the attribute is under a top-level entry of the
range. -/
def Unshared (root virtualAddress pages : BitVec 64) (flag : PageDirectoryFlagBit) (s : Paging) :
    Prop :=
  ∀ address, translate s.memory root address ≠ none → OutsideRange virtualAddress pages address →
    s.Effective root flag address → ∀ i < pages.toNat,
      topIndex address ≠ topIndex (virtualAddress + BitVec.ofNat 64 i * 4096#64)

theorem clear_attribute_local_iff (hflag : flag = .writable ∨ flag = .userspace)
    (htree : s.WellFormedTree root) (hmapped : RangeMapped root virtualAddress pages s) :
    ClearedLocally root virtualAddress pages flag s
        (pagingSetAttribute root virtualAddress pages flag false s) ↔
      Unshared root virtualAddress pages flag s := by
  have hbit : 0 < flag.toNat ∧ flag.toNat < 12 := by
    rcases hflag with rfl | rfl <;> decide
  have hentries : EntriesRewritten root (fun entry => setBit entry flag.toNat false)
      (OnRange virtualAddress pages) s
      (pagingSetAttribute root virtualAddress pages flag false s) :=
    pagingSetAttribute_entries htree.1 hbit.1 hbit.2 hmapped
  generalize pagingSetAttribute root virtualAddress pages flag false s = t at hentries ⊢
  have hlow : flag.toNat < 31 := by omega
  constructor
  · intro h address hpage houtside hset
    exact ((hentries.effective_iff hlow).mp ((h.kept address hpage houtside).mpr hset)).2
  · intro h
    constructor
    · intro i hi hset
      exact ((hentries.effective_iff hlow).mp hset).2 i hi rfl
    · intro address hpage houtside
      rw [hentries.effective_iff hlow]
      exact ⟨And.left, fun hset => ⟨hset, h address hpage houtside hset⟩⟩

end Clear

/-- The lowest three pages, mapped onto themselves and writable. -/
def writablePages : Paging := pagingSetAttribute 0x1000 0 3 .writable true threePages

private theorem threePages_rangeMapped : RangeMapped 0x1000 0 3 threePages := by
  intro i hi
  have haddress : (0 : BitVec 64) + BitVec.ofNat 64 i * 4096#64 = addressOfPage i := by
    simp [addressOfPage, BitVec.ofNat_mul]
  obtain ⟨j, -, -, htranslate⟩ := threePages_linked.translate_of_mem (show i < 3 from hi) rfl
  rw [haddress]
  exact ⟨_, htranslate⟩

private theorem writablePages_allowed : Allowed 0x1000 (fun cell => cell ≠ [] ∧ ∃ i < 3,
      cell <+: walkIndexes (0 + BitVec.ofNat 64 i * 4096#64)) threePages writablePages :=
  pagingSetAttribute_allowed 0 3 threePages_linked.tree threePages_rangeMapped

theorem writablePages_wellFormedTree : writablePages.WellFormedTree 0x1000 :=
  writablePages_allowed.wellFormedTree (threePages_linked.toExtends.wellFormedTree
    (zeroedPaging_wellFormedTree 0x1000) threePages_linked.tree)

theorem writablePages_rangeMapped : RangeMapped 0x1000 0x1000 1 writablePages := by
  intro i hi
  obtain rfl : i = 0 := Nat.lt_one_iff.mp hi
  obtain ⟨page, hpage⟩ := threePages_rangeMapped 1 (by decide)
  exact ⟨page, (writablePages_allowed.translate _).trans hpage⟩

/-- When all three pages are cleared there is no other page that could lose the attribute. -/
theorem clear_attribute_local_page :
    writablePages.WellFormedTree 0x1000 ∧ RangeMapped 0x1000 0 3 writablePages ∧
      ClearedLocally 0x1000 0 3 .writable writablePages
        (pagingSetAttribute 0x1000 0 3 .writable false writablePages) := by
  have hmapped : RangeMapped 0x1000 0 3 writablePages := by
    intro i hi
    obtain ⟨page, hpage⟩ := threePages_rangeMapped i hi
    exact ⟨page, (writablePages_allowed.translate _).trans hpage⟩
  refine ⟨writablePages_wellFormedTree, hmapped,
    (clear_attribute_local_iff (.inl rfl) writablePages_wellFormedTree hmapped).mpr ?_⟩
  intro address htranslate houtside
  have hwalk : ∀ i < 3, walkIndexes address ≠ walkIndexes (addressOfPage i) := by
    intro i hi heq
    apply houtside i hi
    have haddress : (0 : BitVec 64) + BitVec.ofNat 64 i * 4096#64 = addressOfPage i := by
      simp [addressOfPage, BitVec.ofNat_mul]
    rw [haddress]
    exact walkIndexes_eq_iff.mp heq
  have hunmapped : translate threePages.memory 0x1000 address = none := by
    rw [threePages_linked.other address hwalk, Option.eq_none_iff_forall_ne_some]
    intro page hpage
    exact List.cons_ne_nil _ _ (zeroedPaging_table hpage).1
  rw [writablePages_allowed.translate] at htranslate
  exact absurd hunmapped htranslate

/-- The page after the one that is cleared can no longer be written either. -/
theorem clear_attribute_shared :
    writablePages.WellFormedTree 0x1000 ∧ RangeMapped 0x1000 0x1000 1 writablePages ∧
      ¬ClearedLocally 0x1000 0x1000 1 .writable writablePages
        (pagingSetAttribute 0x1000 0x1000 1 .writable false writablePages) := by
  refine ⟨writablePages_wellFormedTree, writablePages_rangeMapped, ?_⟩
  intro h
  have hmapped : translate writablePages.memory 0x1000 0x2000 ≠ none := by
    obtain ⟨page, hpage⟩ := threePages_rangeMapped 2 (by decide)
    rw [writablePages_allowed.translate, show translate threePages.memory 0x1000 0x2000 = _ from hpage]
    simp
  have houtside : OutsideRange 0x1000 1 0x2000 := by
    intro i hi
    obtain rfl : i = 0 := Nat.lt_one_iff.mp hi
    decide
  have hbefore : writablePages.Effective 0x1000 .writable 0x2000 := by
    intro path index hprefix
    exact (writablePages_allowed.writes path index (length_le_of_concat_isPrefix hprefix)).mpr
      (.inr ⟨by simp, 2, by decide, hprefix⟩)
  have hentries : EntriesRewritten 0x1000 _ (OnRange 0x1000 1) writablePages
      (pagingSetAttribute 0x1000 0x1000 1 .writable false writablePages) :=
    pagingSetAttribute_entries writablePages_wellFormedTree.1 (by decide) (by decide)
      writablePages_rangeMapped
  have hafter := (h.kept 0x2000 hmapped houtside).mpr hbefore
  exact ((hentries.effective_iff (by decide)).mp hafter).2 0 (by decide) (by decide)

/-! ## The bits of an entry -/

section Bits

variable {root virtualAddress pages : BitVec 64} {s : Paging} {flag : PageDirectoryFlagBit}
  {enabled : Bool}

/-- Entries on the walks change in the bit of the attribute only, and all translations stay. -/
structure ChangesOneBit (root virtualAddress pages : BitVec 64) (flag : PageDirectoryFlagBit)
    (s t : Paging) : Prop where
  bits : ∀ k i, (k, i) ∈ rangeCells root virtualAddress pages s → ∀ bit < 64,
    bit ≠ flag.toNat → (t.memory k i).getLsbD bit = (s.memory k i).getLsbD bit
  translate : ∀ address, translate t.memory root address = translate s.memory root address

/-- The bits 31 to 62 of the entries on the walks have the value already. -/
def UpperBits (root virtualAddress pages : BitVec 64) (enabled : Bool) (s : Paging) : Prop :=
  ∀ k i, (k, i) ∈ rangeCells root virtualAddress pages s → ∀ bit, 31 ≤ bit → bit < 63 →
    (s.memory k i).getLsbD bit = enabled

private theorem changesOneBit_of_keeps
    (hflag : flag.toNat ≠ 0 ∧ ¬(12 ≤ flag.toNat ∧ flag.toNat < 52))
    (hmapped : RangeMapped root virtualAddress pages s)
    (hkeeps : ∀ k i, (k, i) ∈ rangeCells root virtualAddress pages s → ∀ bit < 64,
      bit ≠ flag.toNat →
        (setBit (s.memory k i) flag.toNat enabled).getLsbD bit = (s.memory k i).getLsbD bit) :
    ChangesOneBit root virtualAddress pages flag s
      (pagingSetAttribute root virtualAddress pages flag enabled s) := by
  have htarget : ∀ k i, (k, i) ∈ rangeCells root virtualAddress pages s →
      entryTarget (setBit (s.memory k i) flag.toNat enabled) = entryTarget (s.memory k i) := by
    intro k i hcell
    apply entryTarget_congr
    intro bit hbit
    exact hkeeps k i hcell bit (by omega) (by omega)
  have hrewritten := pagingSetAttribute_rewritten rfl hmapped fun k i hcell _ => htarget k i hcell
  constructor
  · intro k i hcell bit hbit hne
    rw [hrewritten.inside k i hcell]
    exact hkeeps k i hcell bit hbit hne
  · intro address
    exact hrewritten.descend_eq htarget

private theorem getLsbD_setBit_noexecute (entry : BitVec 64) (enabled : Bool) {bit : Nat}
    (hle : 31 ≤ bit) (hlt : bit < 64) :
    (setBit entry PageDirectoryFlagBit.noexecute.toNat enabled).getLsbD bit = enabled := by
  rw [getLsbD_setBit_mask _ _ _ hlt, getLsbD_shiftedOne_noexecute hlt, decide_eq_true hle,
    if_pos rfl]

/-- What is written at the first entry on the walks stays, and so it has to be right. -/
theorem ChangesOneBit.upperBits (hmapped : RangeMapped root virtualAddress pages s)
    (h : ChangesOneBit root virtualAddress pages .noexecute s
      (pagingSetAttribute root virtualAddress pages .noexecute enabled s)) :
    UpperBits root virtualAddress pages enabled s := by
  have hrewritten := pagingSetAttribute_rewritten rfl hmapped (by
    intro k i hcell heq
    apply entryTarget_congr
    intro bit hbit
    rw [← heq]
    apply h.bits k i hcell bit (by omega)
    simp only [PageDirectoryFlagBit.toNat]
    omega)
  intro k i hcell bit hle hlt
  rw [← h.bits k i hcell bit (by omega) (by simp only [PageDirectoryFlagBit.toNat]; omega),
    hrewritten.inside k i hcell, getLsbD_setBit_noexecute _ enabled hle (by omega)]

theorem set_attribute_one_bit_iff
    (hflag : flag ∈ [PageDirectoryFlagBit.writable, .userspace, .writethrough, .nocache, .noexecute])
    (hmapped : RangeMapped root virtualAddress pages s) :
    ChangesOneBit root virtualAddress pages flag s
        (pagingSetAttribute root virtualAddress pages flag enabled s) ↔
      flag ≠ .noexecute ∨ UpperBits root virtualAddress pages enabled s := by
  by_cases hnoexecute : flag = .noexecute
  · subst flag
    rw [or_iff_right (by simp)]
    constructor
    · intro h
      exact h.upperBits hmapped
    · intro h
      apply changesOneBit_of_keeps (by decide) hmapped
      intro k i hcell bit hlt hne
      by_cases hle : 31 ≤ bit
      · rw [getLsbD_setBit_noexecute _ enabled hle hlt, h k i hcell bit hle]
        simp only [PageDirectoryFlagBit.toNat] at hne
        omega
      · rw [getLsbD_setBit_mask _ _ _ hlt, getLsbD_shiftedOne_noexecute hlt,
          decide_eq_false hle, if_neg (by simp)]
  · have hlow : 0 < flag.toNat ∧ flag.toNat < 12 := by
      revert hflag hnoexecute
      cases flag <;> decide
    apply iff_of_true _ (.inl hnoexecute)
    apply changesOneBit_of_keeps (by omega) hmapped
    intro k i _ bit hlt hne
    rw [getLsbD_setBit (by omega) enabled hlt, if_neg hne]

end Bits

theorem set_attribute_one_bit_page :
    ChangesOneBit 0x1000 0x1000 1 .userspace writablePages
      (pagingSetAttribute 0x1000 0x1000 1 .userspace true writablePages) :=
  (set_attribute_one_bit_iff (by decide) writablePages_rangeMapped).mpr (.inl (by decide))

/-- Forbidding execution overwrites the upper half of the addresses in the entries. -/
theorem set_noexecute_many_bits :
    RangeMapped 0x1000 0x1000 1 writablePages ∧
      ¬ChangesOneBit 0x1000 0x1000 1 .noexecute writablePages
        (pagingSetAttribute 0x1000 0x1000 1 .noexecute true writablePages) := by
  refine ⟨writablePages_rangeMapped, ?_⟩
  intro h
  have hcell : (1, 0) ∈ rangeCells 0x1000 0x1000 1 writablePages :=
    ⟨0, by decide, List.mem_cons_self⟩
  have hbit := h.upperBits writablePages_rangeMapped 1 0 hcell 31 (by decide) (by decide)
  revert hbit
  decide +kernel

end VisualOS.Kernel
