import VisualOS.Memory.PageframeOwnership
import VisualOS.Memory.PagingInit

/-!
# Ranges of bytes

The operations that take a size in bytes round it up to pages, and start with the page of the
address.  A range that starts inside of a page can reach into one page more than that.
-/

namespace VisualOS.Kernel

open Framework

def pagingSetWritableSize (pagetableL4 virtualAddress : BitVec 64) (size : Nat) (s : Paging) :
    Paging :=
  pagingSetWritable pagetableL4 virtualAddress (BitVec.ofNat 64 (nearestPage size)) s

/-- Some byte of the range is in the page. -/
def Overlaps (address size page : Nat) : Prop :=
  ∃ x, address ≤ x ∧ x < address + size ∧ x / 4096 = page

/-- The page of the last byte. -/
def lastPage (address size : Nat) : Nat := (address + size - 1) / 4096

/-- The rounded size reaches to the end of the range. -/
def Covered (address size : Nat) : Prop :=
  size = 0 ∨ address % 4096 + size ≤ 4096 * nearestPage size

instance (address size : Nat) : Decidable (Covered address size) :=
  inferInstanceAs (Decidable (_ ∨ _))

/-! ## The pages of a range -/

section Pages

variable {address size page : Nat}

private theorem overlaps_iff (hsize : 0 < size) :
    Overlaps address size page ↔ address / 4096 ≤ page ∧ page ≤ lastPage address size := by
  rw [lastPage]
  constructor
  · rintro ⟨x, hle, hlt, rfl⟩
    omega
  · rintro ⟨hfirst, hlast⟩
    refine ⟨max address (page * 4096), le_max_left _ _, ?_, ?_⟩
    · omega
    · omega

private theorem nearestPage_of_fits (hfits : address + size ≤ 2 ^ 52) :
    nearestPage size = (size + 4095) / 4096 := nearestPage_eq (by omega)

private theorem overlaps_reached (hfits : address + size ≤ 2 ^ 52) {i : Nat}
    (hi : i < nearestPage size) : Overlaps address size (address / 4096 + i) := by
  rw [nearestPage_of_fits hfits] at hi
  rw [overlaps_iff (by omega), lastPage]
  omega

private theorem overlaps_cases (hfits : address + size ≤ 2 ^ 52) (h : Overlaps address size page) :
    (∃ i < nearestPage size, page = address / 4096 + i) ∨
      ¬ Covered address size ∧ page = lastPage address size := by
  have hsize : 0 < size := by
    obtain ⟨x, hle, hlt, -⟩ := h
    omega
  rw [overlaps_iff hsize] at h
  rw [Covered, lastPage] at *
  rw [nearestPage_of_fits hfits] at *
  rcases Nat.lt_or_ge page (address / 4096 + (size + 4095) / 4096) with hlt | hge
  · exact .inl ⟨page - address / 4096, by omega, by omega⟩
  · exact .inr (by omega)

private theorem lastPage_of_not_covered (hfits : address + size ≤ 2 ^ 52)
    (h : ¬ Covered address size) : lastPage address size = address / 4096 + nearestPage size ∧
      Overlaps address size (lastPage address size) := by
  rw [Covered, not_or] at h
  have hsize : 0 < size := Nat.pos_of_ne_zero h.1
  have hlast : lastPage address size = address / 4096 + nearestPage size := by
    rw [lastPage]
    rw [nearestPage_of_fits hfits] at *
    omega
  rw [overlaps_iff hsize, hlast]
  exact ⟨rfl, Nat.le_add_right _ _, le_rfl⟩

private theorem page_le_lastPage (h : Overlaps address size page) :
    page ≤ lastPage address size := by
  obtain ⟨x, hle, hlt, rfl⟩ := h
  rw [lastPage]
  omega

end Pages

/-! ## Reserving frames -/

/-- The tracked frames under the range are in use afterwards. -/
def ReservesAll (address size : Nat) (s t : Pageframe) : Prop :=
  ∀ i, Overlaps address size i → i < s.frames → t.inUse i = true

private theorem reserveSize_covers_iff (address size : Nat) (hfits : address + size ≤ 2 ^ 52)
    {s : Pageframe} (hfree : s.mutex.getLsbD PageframeMutexBit.lock.toNat = false) :
    ∃ t, pageframeReserveSize address size s = some t ∧
      (ReservesAll address size s t ↔ Covered address size ∨
          (lastPage address size < s.frames → s.inUse (lastPage address size) = true)) := by
  obtain ⟨t, ht, hmarked⟩ := markFrames_spec .reserved address (nearestPage size) hfree
  refine ⟨t, ht, ?_⟩
  have hword : address / 4096 + nearestPage size < 2 ^ 64 := by
    rw [nearestPage_of_fits hfits]
    omega
  constructor
  · intro hall
    by_cases hcovered : Covered address size
    · exact .inl hcovered
    · obtain ⟨hlast, hoverlaps⟩ := lastPage_of_not_covered hfits hcovered
      right
      intro hlt
      have hused := hall _ hoverlaps hlt
      have hout : lastPage address size ∉ frameIndexes address (nearestPage size) := by
        rw [mem_frameIndexes hword, hlast]
        omega
      rw [hmarked.inUse] at hused
      simpa [hout] using hused
  · intro hcond i hi hlt
    rw [hmarked.inUse]
    rcases overlaps_cases hfits hi with ⟨k, hk, rfl⟩ | ⟨hcovered, rfl⟩
    · have hin : address / 4096 + k ∈ frameIndexes address (nearestPage size) := by
        rw [mem_frameIndexes hword]
        omega
      simp [hin, hlt.le]
    · rw [hcond.resolve_left hcovered hlt, Bool.true_or]

/-! ## Mapping pages onto themselves -/

/-- The address in the `i`th page of a range that starts at any address. -/
def addressInPage (address i : Nat) : BitVec 64 := BitVec.ofNat 64 (address + i * 4096)

section Walks

variable {address size n : Nat} {root : BitVec 64} {s t : Paging}

private theorem walkIndexes_addressInPage {i : Nat} (h : address + i * 4096 < 2 ^ 64) :
    walkIndexes (addressInPage address i) = walkIndexes (addressOfPage (address / 4096 + i)) := by
  rw [walkIndexes_eq_iff, addressInPage, addressOfPage]
  have hpage := virtualPage_ofNat h
  have hpage' := virtualPage_ofNat (show (address / 4096 + i) * 4096 < 2 ^ 64 by omega)
  rw [virtualPage] at hpage hpage'
  rw [hpage, hpage', Nat.mul_div_cancel _ (by decide)]
  congr 1
  omega

private theorem framePage_addressInPage {i : Nat} (h : address + i * 4096 < 2 ^ 52) :
    framePage (addressInPage address i) = BitVec.ofNat 52 (address / 4096 + i) := by
  rw [addressInPage, framePage_ofNat h]
  congr 1
  omega

private theorem forPages_eq_mapPages (virtual physical : Nat → BitVec 64) (n : Nat) (s : Paging) :
    forPages (fun i => pagingMapPage root (virtual i) (physical i)) n s =
      mapPages root virtual physical n s := by
  induction n with
  | zero => rfl
  | succ n ih => rw [forPages_succ, ih, mapPages]

private theorem pagingIdentityMapSize_eq (hfits : address + size ≤ 2 ^ 52) (s : Paging) :
    pagingIdentityMapSize root (BitVec.ofNat 64 address) size s =
      some (mapPages root (addressInPage address) (addressInPage address) (nearestPage size) s) := by
  have hpages := nearestPage_of_fits hfits
  have hbound : BitVec.ofNat 64 address + BitVec.ofNat 64 (nearestPage size) * 4096#64 =
      BitVec.ofNat 64 (address + nearestPage size * 4096) := by
    rw [BitVec.ofNat_add, BitVec.ofNat_mul]
  rw [pagingIdentityMapSize, pagingIdentityMap, hbound,
    pointerLoop_eq _ (address + nearestPage size * 4096) address (nearestPage size) (by omega)
      (Nat.le_add_right _ _) (by omega), ← forPages_eq_mapPages]
  rfl

/-- The page translates to itself. -/
def IdentityMapped (root : BitVec 64) (s : Paging) (page : Nat) : Prop :=
  translate s.memory root (addressOfPage page) = some (BitVec.ofNat 52 page)

/-- No later page of the range shares its entries. -/
def LastOfItsWalk (address size page : Nat) : Prop :=
  ∀ page', Overlaps address size page' → page < page' →
    walkIndexes (addressOfPage page) ≠ walkIndexes (addressOfPage page')

/-- The pages of the range translate to themselves. -/
def MapsAll (root : BitVec 64) (address size : Nat) (t : Paging) : Prop :=
  ∀ page, Overlaps address size page → LastOfItsWalk address size page → IdentityMapped root t page

/-- The last page is mapped onto itself already, and not through entries that are written. -/
def LastMapped (root : BitVec 64) (address size : Nat) (s : Paging) : Prop :=
  (∀ page, Overlaps address size page → page < lastPage address size →
    walkIndexes (addressOfPage page) ≠ walkIndexes (addressOfPage (lastPage address size))) ∧
  IdentityMapped root s (lastPage address size)

private theorem identityMapSize_covers_iff (root : BitVec 64) (address size : Nat)
    (hfits : address + size ≤ 2 ^ 52) {s : Paging} (htree : s.Tree root) :
    ∃ t, pagingIdentityMapSize root (BitVec.ofNat 64 address) size s = some t ∧
      (s.FreshAnswers root t.requests →
        (MapsAll root address size t ↔ Covered address size ∨ LastMapped root address size s)) := by
  refine ⟨_, pagingIdentityMapSize_eq hfits s, ?_⟩
  intro hfresh
  have hlinked := mapPages_linked htree hfresh
  have hpages := nearestPage_of_fits hfits
  have hwalk {i : Nat} (hi : i < nearestPage size) :
      walkIndexes (addressInPage address i) = walkIndexes (addressOfPage (address / 4096 + i)) :=
    walkIndexes_addressInPage (by omega)
  constructor
  · intro hall
    by_cases hcovered : Covered address size
    · exact .inl hcovered
    · right
      obtain ⟨hlast, hoverlaps⟩ := lastPage_of_not_covered hfits hcovered
      have hself := hall _ hoverlaps fun page hpage hlt =>
        absurd (page_le_lastPage hpage) (Nat.not_le.mpr hlt)
      have halone : ∀ i < nearestPage size, walkIndexes (addressOfPage (lastPage address size)) ≠
          walkIndexes (addressInPage address i) := by
        intro k hk heq
        obtain ⟨i, hi, -, htranslate⟩ := hlinked.translate_of_mem hk heq
        rw [IdentityMapped, htranslate, framePage_addressInPage (by omega), Option.some.injEq,
          ← BitVec.toNat_inj, BitVec.toNat_ofNat, BitVec.toNat_ofNat] at hself
        omega
      constructor
      · intro page hpage hlt heq
        rcases overlaps_cases hfits hpage with ⟨i, hi, rfl⟩ | ⟨-, rfl⟩
        · exact halone i hi (heq.symm.trans (hwalk hi).symm)
        · exact absurd hlt (lt_irrefl _)
      · rw [IdentityMapped] at hself ⊢
        rw [← hself]
        exact (hlinked.other _ halone).symm
  · intro hcond page hpage hlater
    rcases overlaps_cases hfits hpage with ⟨i, hi, rfl⟩ | ⟨hcovered, rfl⟩
    · have htranslate := hlinked.linked i hi fun j hij hj heq => by
        rw [hwalk hi, hwalk hj] at heq
        exact hlater _ (overlaps_reached hfits hj) (by omega) heq
      rw [framePage_addressInPage (by omega)] at htranslate
      rw [IdentityMapped, translate, ← hwalk hi]
      exact htranslate
    · obtain ⟨halone, hself⟩ := hcond.resolve_left hcovered
      obtain ⟨hlast, -⟩ := lastPage_of_not_covered hfits hcovered
      rw [IdentityMapped] at hself ⊢
      rw [← hself]
      apply hlinked.other
      intro i hi heq
      rw [hwalk hi] at heq
      exact halone _ (overlaps_reached hfits hi) (by omega) heq.symm

/-! ## Allowing writes -/

/-- The pages of the range may be written. -/
def GrantsAll (root : BitVec 64) (address size : Nat) (t : Paging) : Prop :=
  ∀ page, Overlaps address size page → t.EffectivelyWritable root (addressOfPage page)

/-- Each entry over the last page allows writes already, or is over another page of the range. -/
def LastGranted (root : BitVec 64) (address size : Nat) (s : Paging) : Prop :=
  ∀ path index, path ++ [index] <+: walkIndexes (addressOfPage (lastPage address size)) →
    s.Writes root path index ∨
      ∃ page, Overlaps address size page ∧ page < lastPage address size ∧
        path ++ [index] <+: walkIndexes (addressOfPage page)

private theorem writes_setWritableSize (root : BitVec 64) (address size : Nat)
    (hfits : address + size ≤ 2 ^ 52) {s : Paging} (htree : s.Tree root)
    (hmapped : ∀ page, Overlaps address size page →
      ∃ frame, translate s.memory root (addressOfPage page) = some frame)
    {path : List (BitVec 9)} {index : BitVec 9} (hpath : path.length ≤ 3) :
    (pagingSetWritableSize root (BitVec.ofNat 64 address) size s).Writes root path index ↔
      s.Writes root path index ∨ ∃ i < nearestPage size,
        path ++ [index] <+: walkIndexes (addressOfPage (address / 4096 + i)) := by
  have hpages := nearestPage_of_fits hfits
  have hcount : (BitVec.ofNat 64 (nearestPage size)).toNat = nearestPage size := by
    rw [BitVec.toNat_ofNat]
    omega
  have hwalk {i : Nat} (hi : i < nearestPage size) :
      walkIndexes (BitVec.ofNat 64 address + BitVec.ofNat 64 i * 4096#64) =
        walkIndexes (addressOfPage (address / 4096 + i)) := by
    rw [← walkIndexes_addressInPage (by omega), addressInPage, BitVec.ofNat_add, BitVec.ofNat_mul i]
  have hsource : ∀ i < (BitVec.ofNat 64 (nearestPage size)).toNat, ∃ frame,
      translate s.memory root (BitVec.ofNat 64 address + BitVec.ofNat 64 i * 4096#64) =
        some frame := by
    intro i hi
    rw [hcount] at hi
    rw [translate, hwalk hi]
    exact hmapped _ (overlaps_reached hfits hi)
  have hallowed := pagingSetAttribute_allowed (BitVec.ofNat 64 address)
    (BitVec.ofNat 64 (nearestPage size)) htree hsource
  rw [pagingSetWritableSize, pagingSetWritable, hallowed.writes path index hpath, hcount]
  apply or_congr_right
  rw [and_iff_right (by simp)]
  apply exists_congr
  intro i
  apply and_congr_right
  intro hi
  rw [hwalk hi]

private theorem setWritableSize_covers_iff (root : BitVec 64) (address size : Nat)
    (hfits : address + size ≤ 2 ^ 52) {s : Paging} (htree : s.Tree root)
    (hmapped : ∀ page, Overlaps address size page →
      ∃ frame, translate s.memory root (addressOfPage page) = some frame) :
    GrantsAll root address size
        (pagingSetWritableSize root (BitVec.ofNat 64 address) size s) ↔
      Covered address size ∨ LastGranted root address size s := by
  constructor
  · intro hall
    by_cases hcovered : Covered address size
    · exact .inl hcovered
    · right
      obtain ⟨hlast, hoverlaps⟩ := lastPage_of_not_covered hfits hcovered
      intro path index hprefix
      have hwritable := hall _ hoverlaps path index hprefix
      rw [writes_setWritableSize root address size hfits htree hmapped
        (length_le_of_concat_isPrefix hprefix)] at hwritable
      apply hwritable.imp_right
      rintro ⟨i, hi, hcell⟩
      exact ⟨_, overlaps_reached hfits hi, by omega, hcell⟩
  · intro hcond page hpage path index hprefix
    rw [writes_setWritableSize root address size hfits htree hmapped
      (length_le_of_concat_isPrefix hprefix)]
    rcases overlaps_cases hfits hpage with ⟨i, hi, rfl⟩ | ⟨hcovered, rfl⟩
    · exact .inr ⟨i, hi, hprefix⟩
    · apply (hcond.resolve_left hcovered path index hprefix).imp_right
      rintro ⟨page, hpage, hlt, hcell⟩
      rcases overlaps_cases hfits hpage with ⟨i, hi, rfl⟩ | ⟨-, rfl⟩
      · exact ⟨i, hi, hcell⟩
      · exact absurd hlt (lt_irrefl _)

end Walks

/-! ## All three -/

/-- The rounded size covers the range, or the page behind it needs nothing done to it. -/
theorem byte_ranges_covered_iff (address size : Nat) (hfits : address + size ≤ 2 ^ 52) :
    (∀ s : Pageframe, s.mutex.getLsbD PageframeMutexBit.lock.toNat = false →
      ∃ t, pageframeReserveSize address size s = some t ∧
        (ReservesAll address size s t ↔ Covered address size ∨
          (lastPage address size < s.frames → s.inUse (lastPage address size) = true))) ∧
    (∀ (root : BitVec 64) (s : Paging), s.Tree root →
      ∃ t, pagingIdentityMapSize root (BitVec.ofNat 64 address) size s = some t ∧
        (s.FreshAnswers root t.requests →
          (MapsAll root address size t ↔ Covered address size ∨ LastMapped root address size s))) ∧
    ∀ (root : BitVec 64) (s : Paging), s.Tree root →
      (∀ page, Overlaps address size page →
        ∃ frame, translate s.memory root (addressOfPage page) = some frame) →
      (GrantsAll root address size
          (pagingSetWritableSize root (BitVec.ofNat 64 address) size s) ↔
        Covered address size ∨ LastGranted root address size s) := by
  refine ⟨?_, ?_, ?_⟩
  · intro s hfree
    exact reserveSize_covers_iff address size hfits hfree
  · intro root s htree
    exact identityMapSize_covers_iff root address size hfits htree
  · intro root s htree hmapped
    exact setWritableSize_covers_iff root address size hfits htree hmapped

/-- A table of the firmware with 120 bytes that starts 16 bytes before the end of a page. -/
theorem byte_ranges_covered_table :
    ¬ Covered 0x1ff0 120 ∧
      (∃ t, pageframeReserveSize 0x1ff0 120 eightFrames = some t ∧
        (ReservesAll 0x1ff0 120 eightFrames t ↔ Covered 0x1ff0 120 ∨
          (lastPage 0x1ff0 120 < eightFrames.frames →
            eightFrames.inUse (lastPage 0x1ff0 120) = true))) ∧
      (∃ t, pagingIdentityMapSize 0x1000 (BitVec.ofNat 64 0x1ff0) 120 zeroedPaging = some t ∧
        (MapsAll 0x1000 0x1ff0 120 t ↔
          Covered 0x1ff0 120 ∨ LastMapped 0x1000 0x1ff0 120 zeroedPaging)) ∧
      (GrantsAll 0x1000 0x1ff0 120
          (pagingSetWritableSize 0x1000 (BitVec.ofNat 64 0x1ff0) 120 threePages) ↔
        Covered 0x1ff0 120 ∨ LastGranted 0x1000 0x1ff0 120 threePages) := by
  obtain ⟨hreserve, hmap, hgrant⟩ := byte_ranges_covered_iff 0x1ff0 120 (by decide)
  refine ⟨by decide, hreserve eightFrames (by decide), ?_, ?_⟩
  · obtain ⟨t, ht, hiff⟩ := hmap 0x1000 zeroedPaging (zeroedPaging_wellFormedTree 0x1000).1
    refine ⟨t, ht, hiff ?_⟩
    rw [pagingIdentityMapSize_eq (by decide), Option.some.injEq] at ht
    rw [← ht]
    exact zeroedPaging_freshAnswers_three
  · apply hgrant 0x1000 threePages threePages_linked.tree
    intro page hpage
    have hle := page_le_lastPage hpage
    rw [show lastPage 0x1ff0 120 = 2 by decide] at hle
    obtain ⟨i, -, -, htranslate⟩ :=
      threePages_linked.translate_of_mem (Nat.lt_succ_of_le hle) rfl
    exact ⟨_, htranslate⟩

/-- The last bytes of that table are in a frame that stays free. -/
theorem not_reservesAll_table :
    ∃ t, pageframeReserveSize 0x1ff0 120 eightFrames = some t ∧
      ¬ ReservesAll 0x1ff0 120 eightFrames t := by
  obtain ⟨t, ht, hiff⟩ := reserveSize_covers_iff 0x1ff0 120 (by decide)
    (show eightFrames.mutex.getLsbD PageframeMutexBit.lock.toNat = false by decide)
  refine ⟨t, ht, ?_⟩
  rw [hiff]
  decide

end VisualOS.Kernel
