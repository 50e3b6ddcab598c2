import VisualOS.Memory.PagingMap

/-!
# Mapping a range of pages

`paging_map` counts pages with an `int`, so the offset of a page is right only for the first
`2 ^ 19` of them.
-/

namespace VisualOS.Kernel

open Framework

/-- `i * MEMORY_PAGE_SIZE` in `paging_map`: a product of two `int`s converted to `size_t`. -/
def pagingMapOffset (i : BitVec 32) : BitVec 64 := (i * 4096#32).signExtend 64

/-- The loop of `paging_map`, whose condition converts `i` to `size_t`. -/
def pagingMapLoop (pagetableL4 virtualAddress physicalAddress pages : BitVec 64) :
    Nat → BitVec 32 → Paging → Option Paging
  | 0, _, _ => none
  | rounds + 1, i, s =>
      if i.signExtend 64 < pages then
        let offset := pagingMapOffset i
        pagingMapLoop pagetableL4 virtualAddress physicalAddress pages rounds (i + 1)
          (pagingMapPage pagetableL4 (virtualAddress + offset) (physicalAddress + offset) s)
      else some s

/-- After `2 ^ 31` rounds `i` is negative.  At `-1`, which no `size_t` exceeds, the loop ends. -/
def pagingMap (pagetableL4 virtualAddress physicalAddress pages : BitVec 64) (s : Paging) :
    Option Paging :=
  pagingMapLoop pagetableL4 virtualAddress physicalAddress pages (2 ^ 32) 0 s

/-- Mapping `n` pages one after the other. -/
def mapPages (root : BitVec 64) (virtual physical : Nat → BitVec 64) : Nat → Paging → Paging
  | 0, s => s
  | n + 1, s => pagingMapPage root (virtual n) (physical n) (mapPages root virtual physical n s)

section Offsets

theorem pagingMapOffset_eq {i : Nat} (h : i < 2 ^ 19) :
    pagingMapOffset (BitVec.ofNat 32 i) = BitVec.ofNat 64 (i * 4096) := by
  have hproduct : BitVec.ofNat 32 i * 4096#32 = BitVec.ofNat 32 (i * 4096) := by
    rw [BitVec.ofNat_mul]
  have hmsb : (BitVec.ofNat 32 (i * 4096)).msb = false := by
    rw [BitVec.msb_eq_false_iff_two_mul_lt, BitVec.toNat_ofNat]
    omega
  rw [pagingMapOffset, hproduct, BitVec.signExtend_eq_setWidth_of_msb_false hmsb]
  apply BitVec.eq_of_toNat_eq
  simp only [BitVec.toNat_setWidth, BitVec.toNat_ofNat]
  omega

theorem pagingMapOffset_mod (i : Nat) :
    pagingMapOffset (BitVec.ofNat 32 i) = pagingMapOffset (BitVec.ofNat 32 (i % 2 ^ 20)) := by
  have hproduct : BitVec.ofNat 32 i * 4096#32 = BitVec.ofNat 32 (i % 2 ^ 20) * 4096#32 := by
    apply BitVec.eq_of_toNat_eq
    simp only [BitVec.toNat_mul, BitVec.toNat_ofNat]
    omega
  rw [pagingMapOffset, pagingMapOffset, hproduct]

theorem pagingMapOffset_negative {i : Nat} (h : 2 ^ 19 ≤ i) (hlt : i < 2 ^ 20) :
    pagingMapOffset (BitVec.ofNat 32 i) = BitVec.ofNat 64 i * 4096#64 - 0x100000000#64 := by
  have hproduct : BitVec.ofNat 32 i * 4096#32 = BitVec.ofNat 32 (i * 4096) := by
    rw [BitVec.ofNat_mul]
  have hmsb : (BitVec.ofNat 32 (i * 4096)).msb = true := by
    rw [BitVec.msb_eq_true_iff_two_mul_ge, BitVec.toNat_ofNat]
    omega
  rw [pagingMapOffset, hproduct]
  apply BitVec.eq_of_toNat_eq
  rw [BitVec.toNat_signExtend, hmsb]
  simp only [if_true, BitVec.toNat_setWidth, BitVec.toNat_ofNat, BitVec.toNat_sub, BitVec.toNat_mul]
  omega

theorem pagingMapOffset_overflow :
    pagingMapOffset (BitVec.ofNat 32 (2 ^ 19)) = -BitVec.ofNat 64 (2 ^ 31) := by
  decide

private theorem signExtend_lt_iff {pages : BitVec 64} {i : Nat} (h : i < 2 ^ 31) :
    (BitVec.ofNat 32 i).signExtend 64 < pages ↔ i < pages.toNat := by
  have hmsb : (BitVec.ofNat 32 i).msb = false := by
    rw [BitVec.msb_eq_false_iff_two_mul_lt, BitVec.toNat_ofNat]
    omega
  rw [BitVec.signExtend_eq_setWidth_of_msb_false hmsb, BitVec.lt_def, BitVec.toNat_setWidth,
    BitVec.toNat_ofNat]
  omega

end Offsets

section Loop

variable {root virtualAddress physicalAddress pages : BitVec 64} {s : Paging}

private theorem pagingMapLoop_eq {n rounds : Nat} (hpages : pages.toNat ≤ 2 ^ 64 - 2 ^ 31)
    (hn : n ≤ min pages.toNat (2 ^ 31)) (hrounds : min pages.toNat (2 ^ 31) - n < rounds)
    (s : Paging) :
    pagingMapLoop root virtualAddress physicalAddress pages rounds (BitVec.ofNat 32 n)
        (mapPages root (fun i => virtualAddress + pagingMapOffset (BitVec.ofNat 32 i))
          (fun i => physicalAddress + pagingMapOffset (BitVec.ofNat 32 i)) n s) =
      some (mapPages root (fun i => virtualAddress + pagingMapOffset (BitVec.ofNat 32 i))
        (fun i => physicalAddress + pagingMapOffset (BitVec.ofNat 32 i))
          (min pages.toNat (2 ^ 31)) s) := by
  induction rounds generalizing n with
  | zero => omega
  | succ rounds ih =>
      rw [pagingMapLoop]
      by_cases hlt : n < min pages.toNat (2 ^ 31)
      · rw [if_pos ((signExtend_lt_iff (by omega)).mpr (by omega)),
          show BitVec.ofNat 32 n + 1 = BitVec.ofNat 32 (n + 1) from (BitVec.ofNat_add n 1).symm]
        exact ih hlt (by omega)
      · have hlast : n = min pages.toNat (2 ^ 31) := by omega
        rw [if_neg, ← hlast]
        intro h
        by_cases hnegative : n = 2 ^ 31
        · rw [hnegative, show (BitVec.ofNat 32 (2 ^ 31)).signExtend 64 =
            BitVec.ofNat 64 (2 ^ 64 - 2 ^ 31) by decide, BitVec.lt_def, BitVec.toNat_ofNat] at h
          omega
        · rw [signExtend_lt_iff (by omega)] at h
          omega

theorem pagingMap_eq_min (hpages : pages.toNat ≤ 2 ^ 64 - 2 ^ 31) (s : Paging) :
    pagingMap root virtualAddress physicalAddress pages s =
      some (mapPages root (fun i => virtualAddress + pagingMapOffset (BitVec.ofNat 32 i))
        (fun i => physicalAddress + pagingMapOffset (BitVec.ofNat 32 i))
          (min pages.toNat (2 ^ 31)) s) :=
  pagingMapLoop_eq hpages (Nat.zero_le _) (by omega) s

theorem pagingMap_eq (hpages : pages.toNat < 2 ^ 31) (s : Paging) :
    pagingMap root virtualAddress physicalAddress pages s =
      some (mapPages root (fun i => virtualAddress + pagingMapOffset (BitVec.ofNat 32 i))
        (fun i => physicalAddress + pagingMapOffset (BitVec.ofNat 32 i)) pages.toNat s) := by
  rw [pagingMap_eq_min (by omega), Nat.min_eq_left hpages.le]

/-- Whatever the number of pages, the loop ends: its last counter is `-1`. -/
theorem pagingMapLoop_returns {n rounds : Nat} (hn : n < 2 ^ 32) (hrounds : 2 ^ 32 ≤ n + rounds)
    (s : Paging) :
    ∃ t, pagingMapLoop root virtualAddress physicalAddress pages rounds (BitVec.ofNat 32 n) s =
      some t := by
  induction rounds generalizing n s with
  | zero => omega
  | succ rounds ih =>
      rw [pagingMapLoop]
      by_cases hlt : (BitVec.ofNat 32 n).signExtend 64 < pages
      · have hne : n ≠ 2 ^ 32 - 1 := by
          rintro rfl
          have hbound := pages.isLt
          rw [show (BitVec.ofNat 32 (2 ^ 32 - 1)).signExtend 64 = BitVec.allOnes 64 by decide,
            BitVec.lt_def, BitVec.toNat_allOnes] at hlt
          omega
        rw [if_pos hlt,
          show BitVec.ofNat 32 n + 1 = BitVec.ofNat 32 (n + 1) from (BitVec.ofNat_add n 1).symm]
        exact ih (by omega) (by omega) _
      · rw [if_neg hlt]
        exact ⟨s, rfl⟩

theorem pagingMap_returns (root virtualAddress physicalAddress pages : BitVec 64) (s : Paging) :
    ∃ t, pagingMap root virtualAddress physicalAddress pages s = some t :=
  pagingMapLoop_returns (by decide) (by decide) s

private theorem mapPages_congr {virtual virtual' physical physical' : Nat → BitVec 64} {n : Nat}
    (hvirtual : ∀ i < n, virtual i = virtual' i) (hphysical : ∀ i < n, physical i = physical' i)
    (s : Paging) : mapPages root virtual physical n s = mapPages root virtual' physical' n s := by
  induction n with
  | zero => rfl
  | succ n ih =>
      rw [mapPages, mapPages, hvirtual n (by omega), hphysical n (by omega),
        ih (fun i hi => hvirtual i (by omega)) (fun i hi => hphysical i (by omega))]

theorem pagingMap_small (hpages : pages.toNat ≤ 2 ^ 19) (s : Paging) :
    pagingMap root virtualAddress physicalAddress pages s =
      some (mapPages root (fun i => virtualAddress + BitVec.ofNat 64 i * 4096#64)
        (fun i => physicalAddress + BitVec.ofNat 64 i * 4096#64) pages.toNat s) := by
  have hoffset : ∀ i < pages.toNat,
      pagingMapOffset (BitVec.ofNat 32 i) = BitVec.ofNat 64 i * 4096#64 := by
    intro i hi
    rw [pagingMapOffset_eq (by omega), BitVec.ofNat_mul]
  rw [pagingMap_eq (by omega), mapPages_congr]
  · intro i hi
    rw [hoffset i hi]
  · intro i hi
    rw [hoffset i hi]

end Loop

/-! ## What a range of pages becomes -/

section Range

variable {root : BitVec 64} {virtual physical : Nat → BitVec 64} {s : Paging} {n : Nat}

theorem pagingMapPage_requests (root virtualAddress physicalAddress : BitVec 64) (s : Paging) :
    s.requests ≤ (pagingMapPage root virtualAddress physicalAddress s).requests ∧
      (pagingMapPage root virtualAddress physicalAddress s).requests ≤ s.requests + 3 := by
  rw [pagingMapPage]
  generalize pagingGetIndexes virtualAddress = indexes
  have h₃ := pagingNextTable_requests root indexes.L4_i s
  generalize pagingNextTable root indexes.L4_i s = next₃ at h₃ ⊢
  obtain ⟨table₃, s₃⟩ := next₃
  have h₂ := pagingNextTable_requests table₃ indexes.L3_i s₃
  dsimp only at h₃ ⊢
  generalize pagingNextTable table₃ indexes.L3_i s₃ = next₂ at h₂ ⊢
  obtain ⟨table₂, s₂⟩ := next₂
  have h₁ := pagingNextTable_requests table₂ indexes.L2_i s₂
  dsimp only [Paging.write] at h₂ ⊢
  omega

theorem mapPages_requests (root : BitVec 64) (virtual physical : Nat → BitVec 64) (n : Nat)
    (s : Paging) : s.requests ≤ (mapPages root virtual physical n s).requests ∧
      (mapPages root virtual physical n s).requests ≤ s.requests + 3 * n := by
  induction n with
  | zero => exact ⟨le_rfl, le_rfl⟩
  | succ n ih =>
      have hpage := pagingMapPage_requests root (virtual n) (physical n)
        (mapPages root virtual physical n s)
      rw [mapPages]
      omega

/-- Pages that are not overwritten by a later one of the range lead to the frame of the physical
address, pages outside of the range to where they led before. -/
structure LinkedPages (root : BitVec 64) (virtual physical : Nat → BitVec 64) (n : Nat)
    (s t : Paging) : Prop extends Extends root s t where
  tree : t.Tree root
  linked : ∀ i < n, (∀ j, i < j → j < n → walkIndexes (virtual i) ≠ walkIndexes (virtual j)) →
    translate t.memory root (virtual i) = some (framePage (physical i))
  other : ∀ address, (∀ i < n, walkIndexes address ≠ walkIndexes (virtual i)) →
    translate t.memory root address = translate s.memory root address

theorem mapPages_linked (htree : s.Tree root)
    (hfresh : s.FreshAnswers root (mapPages root virtual physical n s).requests) :
    LinkedPages root virtual physical n s (mapPages root virtual physical n s) := by
  induction n with
  | zero => exact ⟨Extends.refl root s, htree, fun i hi => absurd hi (by omega), fun _ _ => rfl⟩
  | succ n ih =>
      have hpages := ih (hfresh.mono (pagingMapPage_requests ..).1)
      obtain ⟨hextends, htree', htranslate⟩ := pagingMapPage_linked hpages.tree
        (hpages.freshAnswers hfresh)
      refine ⟨hpages.toExtends.trans hextends, htree', ?_, ?_⟩
      · intro i hi hlater
        rw [mapPages, htranslate]
        by_cases hin : i = n
        · rw [hin, if_pos rfl]
        · rw [if_neg (hlater n (by omega) (by omega))]
          exact hpages.linked i (by omega) (fun j hij hj => hlater j hij (by omega))
      · intro address hother
        rw [mapPages, htranslate, if_neg (hother n (by omega))]
        exact hpages.other address (fun i hi => hother i (by omega))

/-- Where a page of the range leads: to the frame of the last address that takes its way. -/
theorem LinkedPages.translate_of_mem {t : Paging} (h : LinkedPages root virtual physical n s t)
    {a : BitVec 64} {k : Nat} (hk : k < n)
    (hwalk : walkIndexes a = walkIndexes (virtual k)) :
    ∃ i < n, walkIndexes a = walkIndexes (virtual i) ∧
      translate t.memory root a = some (framePage (physical i)) := by
  obtain ⟨i, ⟨hi, hiwalk⟩, hlast⟩ : ∃ i, (i < n ∧ walkIndexes a = walkIndexes (virtual i)) ∧
      ∀ j, i < j → j ≤ n → ¬ (j < n ∧ walkIndexes a = walkIndexes (virtual j)) :=
    ⟨_, Nat.findGreatest_spec (P := fun i => i < n ∧ walkIndexes a = walkIndexes (virtual i)) hk.le
      ⟨hk, hwalk⟩, fun j => Nat.findGreatest_is_greatest⟩
  refine ⟨i, hi, hiwalk, ?_⟩
  rw [translate, hiwalk]
  apply h.linked i hi
  intro j hij hj heq
  exact hlast j hij hj.le ⟨hj, hiwalk.trans heq⟩

/-- Pages that are not overwritten by a later one of the range translate as asked, pages outside
it as before. -/
structure MappedPages (root : BitVec 64) (virtual physical : Nat → BitVec 64) (n : Nat)
    (s t : Paging) : Prop extends Extends root s t where
  tree : t.Tree root
  mapped : ∀ i < n, (∀ j, i < j → j < n → walkIndexes (virtual i) ≠ walkIndexes (virtual j)) →
    translate t.memory root (virtual i) = some (pageNumber (physical i))
  other : ∀ address, (∀ i < n, walkIndexes address ≠ walkIndexes (virtual i)) →
    translate t.memory root address = translate s.memory root address

theorem mapPages_mapped (htree : s.Tree root) (hframe : ∀ i < n, IsFrameAddress (physical i))
    (hfresh : s.FreshAnswers root (mapPages root virtual physical n s).requests) :
    MappedPages root virtual physical n s (mapPages root virtual physical n s) := by
  have hlinked := mapPages_linked htree hfresh
  refine ⟨hlinked.toExtends, hlinked.tree, ?_, hlinked.other⟩
  intro i hi hlater
  rw [hlinked.linked i hi hlater, framePage, (hframe i hi).pageNumber_eq]

private theorem pagingNextTable_sameFlags {k : BitVec 52} {last : Nat} {table next : BitVec 64}
    {index : BitVec 9} {t : Paging} (h : pagingNextTable table index s = (next, t))
    (hk : ∀ n, s.requests ≤ n → n < last → k ≠ pageNumber (s.answers n))
    (hlast : t.requests ≤ last) (j : BitVec 9) :
    SameFlags (s.memory k j) (t.memory k j) ∧ t.answers = s.answers := by
  rw [pagingNextTable] at h
  split at h
  · obtain ⟨-, rfl⟩ := Prod.mk.inj h
    have hne := hk s.requests le_rfl hlast
    refine ⟨?_, rfl⟩
    dsimp only [Paging.request, Paging.zero, Paging.write]
    by_cases hhere : k = pageNumber table ∧ j = index
    · obtain ⟨rfl, rfl⟩ := hhere
      rw [writeEntry_same]
      exact sameFlags_linkedEntry _ _
    · rw [writeEntry_other hhere, clearTable_other hne]
      exact SameFlags.refl _
  · obtain ⟨-, rfl⟩ := Prod.mk.inj h
    exact ⟨SameFlags.refl _, rfl⟩

theorem pagingMapPage_sameFlags {k : BitVec 52} {virtualAddress physicalAddress : BitVec 64}
    (hk : ∀ n, s.requests ≤ n →
      n < (pagingMapPage root virtualAddress physicalAddress s).requests →
      k ≠ pageNumber (s.answers n)) (j : BitVec 9) :
    SameFlags (s.memory k j) ((pagingMapPage root virtualAddress physicalAddress s).memory k j) := by
  rw [pagingMapPage] at hk ⊢
  generalize pagingGetIndexes virtualAddress = indexes at hk ⊢
  obtain ⟨i₄, i₃, i₂, i₁⟩ := indexes
  dsimp only at hk ⊢
  revert hk
  cases h₃ : pagingNextTable root i₄ s with
  | mk table₃ s₃ =>
  cases h₂ : pagingNextTable table₃ i₃ s₃ with
  | mk table₂ s₂ =>
  cases h₁ : pagingNextTable table₂ i₂ s₂ with
  | mk table₁ s₁ =>
  intro hk
  have hle₃ := (h₃ ▸ pagingNextTable_requests root i₄ s).1
  have hle₂ := (h₂ ▸ pagingNextTable_requests table₃ i₃ s₃).1
  have hle₁ := (h₁ ▸ pagingNextTable_requests table₂ i₂ s₂).1
  dsimp only at hle₁ hle₂ hle₃
  obtain ⟨flags₃, answers₃⟩ := pagingNextTable_sameFlags h₃ hk (hle₂.trans hle₁) j
  rw [← answers₃] at hk
  obtain ⟨flags₂, answers₂⟩ := pagingNextTable_sameFlags h₂
    (fun n hn => hk n (hle₃.trans hn)) hle₁ j
  rw [← answers₂] at hk
  obtain ⟨flags₁, -⟩ := pagingNextTable_sameFlags h₁
    (fun n hn => hk n ((hle₃.trans hle₂).trans hn)) le_rfl j
  apply ((flags₃.trans flags₂).trans flags₁).trans
  dsimp only [Paging.write]
  by_cases hhere : k = pageNumber table₁ ∧ j = i₁
  · obtain ⟨rfl, rfl⟩ := hhere
    rw [writeEntry_same]
    exact sameFlags_linkedEntry _ _
  · rw [writeEntry_other hhere]
    exact SameFlags.refl _

end Range

/-- The address of a page by its number. -/
def addressOfPage (page : Nat) : BitVec 64 := BitVec.ofNat 64 (page * 4096)

/-- The lowest three pages mapped onto themselves. -/
def threePages : Paging := mapPages 0x1000 addressOfPage addressOfPage 3 zeroedPaging

theorem threePages_linked :
    LinkedPages 0x1000 addressOfPage addressOfPage 3 zeroedPaging threePages := by
  apply mapPages_linked (zeroedPaging_wellFormedTree 0x1000).1
  exact zeroedPaging_freshAnswers_three

end VisualOS.Kernel
