import VisualOS.Memory.PagingFlags

/-!
# How far mapping a range reaches

The offsets of `paging_map` repeat after `2 ^ 20` pages, and the upper half of them is negative.
Of a long range the first `2 ^ 19` pages are mapped, and the pages before the range as well.
-/

namespace VisualOS.Kernel

open Framework

section Offsets

variable {virtualAddress pages : BitVec 64} {i j : Nat}

private theorem pageOfRange_toNat (hrange : virtualAddress.toNat + 4096 * pages.toNat ≤ 2 ^ 47)
    (hi : i < pages.toNat) :
    (virtualAddress + BitVec.ofNat 64 i * 4096#64).toNat = virtualAddress.toNat + i * 4096 := by
  rw [BitVec.toNat_add, BitVec.toNat_mul, BitVec.toNat_ofNat, BitVec.toNat_ofNat]
  omega

private theorem mappedPage_toNat (hrange : virtualAddress.toNat + 4096 * pages.toNat ≤ 2 ^ 47)
    (i : Nat) : (virtualAddress + pagingMapOffset (BitVec.ofNat 32 i)).toNat =
      if i % 2 ^ 20 < 2 ^ 19 then virtualAddress.toNat + (i % 2 ^ 20) * 4096
      else (virtualAddress.toNat + (i % 2 ^ 20) * 4096 + 2 ^ 64 - 2 ^ 32) % 2 ^ 64 := by
  rw [pagingMapOffset_mod]
  split_ifs with hlow
  · rw [pagingMapOffset_eq hlow, BitVec.toNat_add, BitVec.toNat_ofNat]
    omega
  · rw [pagingMapOffset_negative (by omega) (by omega), BitVec.toNat_add, BitVec.toNat_sub,
      BitVec.toNat_mul, BitVec.toNat_ofNat, BitVec.toNat_ofNat, BitVec.toNat_ofNat]
    omega

private theorem pageOfRange_canonical (hrange : virtualAddress.toNat + 4096 * pages.toNat ≤ 2 ^ 47)
    (hi : i < pages.toNat) : Canonical (virtualAddress + BitVec.ofNat 64 i * 4096#64) := by
  rw [Canonical, pageOfRange_toNat hrange hi]
  omega

private theorem mappedPage_canonical (hrange : virtualAddress.toNat + 4096 * pages.toNat ≤ 2 ^ 47)
    (hi : i < pages.toNat) : Canonical (virtualAddress + pagingMapOffset (BitVec.ofNat 32 i)) := by
  rw [Canonical, mappedPage_toNat hrange i]
  split_ifs <;> omega

private theorem mappedPage_inj (hrange : virtualAddress.toNat + 4096 * pages.toNat ≤ 2 ^ 47)
    (hi : i < pages.toNat) (hj : j < pages.toNat)
    (hwalk : walkIndexes (virtualAddress + pagingMapOffset (BitVec.ofNat 32 i)) =
      walkIndexes (virtualAddress + pagingMapOffset (BitVec.ofNat 32 j))) :
    pagingMapOffset (BitVec.ofNat 32 i) = pagingMapOffset (BitVec.ofNat 32 j) := by
  rw [walkIndexes_eq_iff_page (mappedPage_canonical hrange hi) (mappedPage_canonical hrange hj),
    mappedPage_toNat hrange i, mappedPage_toNat hrange j] at hwalk
  have hmod : i % 2 ^ 20 = j % 2 ^ 20 := by
    split_ifs at hwalk <;> omega
  rw [pagingMapOffset_mod i, pagingMapOffset_mod j, hmod]

private theorem pageOfRange_eq_iff (hrange : virtualAddress.toNat + 4096 * pages.toNat ≤ 2 ^ 47)
    (hi : i < pages.toNat) (hj : j < pages.toNat) :
    walkIndexes (virtualAddress + BitVec.ofNat 64 i * 4096#64) =
        walkIndexes (virtualAddress + pagingMapOffset (BitVec.ofNat 32 j)) ↔
      i < 2 ^ 19 ∧ i = j % 2 ^ 20 := by
  rw [walkIndexes_eq_iff_page (pageOfRange_canonical hrange hi) (mappedPage_canonical hrange hj),
    mappedPage_toNat hrange j, pageOfRange_toNat hrange hi]
  split_ifs <;> omega

end Offsets

/-- The pages of the range are mapped, and no others. -/
structure RangeCovered (root virtualAddress physicalAddress pages : BitVec 64) (s t : Paging) :
    Prop where
  mapped : ∀ i < pages.toNat,
    translate t.memory root (virtualAddress + BitVec.ofNat 64 i * 4096#64) =
      some (pageNumber (physicalAddress + BitVec.ofNat 64 i * 4096#64))
  other : ∀ address, OutsideRange virtualAddress pages address →
    translate t.memory root address = translate s.memory root address

/-- The pages from `2 ^ 19` on are mapped already, and so are those before the range that the loop
comes to in their place. -/
structure UpperMapped (root virtualAddress physicalAddress pages : BitVec 64) (s : Paging) :
    Prop where
  upper : ∀ i < pages.toNat, 2 ^ 19 ≤ i →
    translate s.memory root (virtualAddress + BitVec.ofNat 64 i * 4096#64) =
      some (pageNumber (physicalAddress + BitVec.ofNat 64 i * 4096#64))
  stray : ∀ i < pages.toNat, 2 ^ 19 ≤ i → i < 2 ^ 20 →
    translate s.memory root (virtualAddress + (BitVec.ofNat 64 i * 4096#64 - 0x100000000#64)) =
      some (framePage (physicalAddress + (BitVec.ofNat 64 i * 4096#64 - 0x100000000#64)))

section Span

variable {root virtualAddress physicalAddress pages : BitVec 64} {s t : Paging} {n : Nat}

/-- What the loop of `paging_map` does in `n` rounds. -/
def SpanLinked (root virtualAddress physicalAddress : BitVec 64) (n : Nat) (s t : Paging) : Prop :=
  LinkedPages root (fun i => virtualAddress + pagingMapOffset (BitVec.ofNat 32 i))
    (fun i => physicalAddress + pagingMapOffset (BitVec.ofNat 32 i)) n s t

private theorem SpanLinked.translate_mapped
    (h : SpanLinked root virtualAddress physicalAddress n s t)
    (hrange : virtualAddress.toNat + 4096 * pages.toNat ≤ 2 ^ 47) (hn : n ≤ pages.toNat)
    {j : Nat} (hj : j < n) :
    translate t.memory root (virtualAddress + pagingMapOffset (BitVec.ofNat 32 j)) =
      some (framePage (physicalAddress + pagingMapOffset (BitVec.ofNat 32 j))) := by
  obtain ⟨i, hi, hwalk, htranslate⟩ := h.translate_of_mem hj rfl
  rw [htranslate, mappedPage_inj hrange (by omega) (by omega) hwalk]

private theorem SpanLinked.translate_upper
    (h : SpanLinked root virtualAddress physicalAddress n s t)
    (hrange : virtualAddress.toNat + 4096 * pages.toNat ≤ 2 ^ 47) (hn : n ≤ pages.toNat)
    {i : Nat} (hi : i < pages.toNat) (hupper : 2 ^ 19 ≤ i) :
    translate t.memory root (virtualAddress + BitVec.ofNat 64 i * 4096#64) =
      translate s.memory root (virtualAddress + BitVec.ofNat 64 i * 4096#64) := by
  apply h.other
  intro j hj hwalk
  rw [pageOfRange_eq_iff hrange hi (by omega)] at hwalk
  omega

private theorem framePage_of_range {i : Nat}
    (hrange : physicalAddress.toNat + 4096 * pages.toNat ≤ 2 ^ 52) (hi : i < pages.toNat) :
    framePage (physicalAddress + BitVec.ofNat 64 i * 4096#64) =
      pageNumber (physicalAddress + BitVec.ofNat 64 i * 4096#64) := by
  have hvalue : (physicalAddress + BitVec.ofNat 64 i * 4096#64).toNat < 2 ^ 52 := by
    rw [BitVec.toNat_add, BitVec.toNat_mul, BitVec.toNat_ofNat, BitVec.toNat_ofNat]
    omega
  apply BitVec.eq_of_toNat_eq
  rw [pageNumber_toNat, framePage, BitVec.toNat_setWidth, BitVec.extractLsb'_toNat,
    Nat.shiftRight_eq_div_pow]
  omega

private theorem SpanLinked.upperMapped (h : SpanLinked root virtualAddress physicalAddress n s t)
    (hvirtual : virtualAddress.toNat + 4096 * pages.toNat ≤ 2 ^ 47)
    (hn : n = min pages.toNat (2 ^ 31))
    (hcovered : RangeCovered root virtualAddress physicalAddress pages s t) :
    UpperMapped root virtualAddress physicalAddress pages s := by
  constructor
  · intro i hi hupper
    rw [← h.translate_upper hvirtual (by omega) hi hupper]
    exact hcovered.mapped i hi
  · intro i hi hupper hlt
    have hmapped := h.translate_mapped hvirtual (by omega) (show i < n by omega)
    rw [← pagingMapOffset_negative hupper hlt, ← hmapped]
    symm
    apply hcovered.other
    intro j hj hpage
    rw [← walkIndexes_eq_iff, eq_comm, pageOfRange_eq_iff hvirtual hj hi] at hpage
    omega

private theorem SpanLinked.covered (h : SpanLinked root virtualAddress physicalAddress n s t)
    (hvirtual : virtualAddress.toNat + 4096 * pages.toNat ≤ 2 ^ 47)
    (hphysical : physicalAddress.toNat + 4096 * pages.toNat ≤ 2 ^ 52)
    (hn : n = min pages.toNat (2 ^ 31))
    (hcondition : pages.toNat ≤ 2 ^ 19 ∨ UpperMapped root virtualAddress physicalAddress pages s) :
    RangeCovered root virtualAddress physicalAddress pages s t := by
  constructor
  · intro i hi
    by_cases hupper : 2 ^ 19 ≤ i
    · rw [h.translate_upper hvirtual (by omega) hi hupper]
      exact (hcondition.resolve_left (by omega)).upper i hi hupper
    · have hmapped := h.translate_mapped hvirtual (by omega) (show i < n by omega)
      have hoffset : pagingMapOffset (BitVec.ofNat 32 i) = BitVec.ofNat 64 i * 4096#64 := by
        rw [pagingMapOffset_eq (by omega), BitVec.ofNat_mul]
      rwa [hoffset, framePage_of_range hphysical hi] at hmapped
  · intro address houtside
    by_cases hreached : ∃ j < n, walkIndexes address =
        walkIndexes (virtualAddress + pagingMapOffset (BitVec.ofNat 32 j))
    · -- A page that is reached from outside of the range is reached by a negative offset.
      obtain ⟨j, hj, hwalk⟩ := hreached
      have hmapped := h.translate_mapped hvirtual (by omega) hj
      have hle : j % 2 ^ 20 ≤ j := Nat.mod_le _ _
      have hnegative : ¬j % 2 ^ 20 < 2 ^ 19 := by
        intro hlt
        apply houtside (j % 2 ^ 20) (by omega)
        rw [← walkIndexes_eq_iff, hwalk, eq_comm, pageOfRange_eq_iff hvirtual (by omega) (by omega)]
        exact ⟨hlt, rfl⟩
      have hstray := (hcondition.resolve_left (by omega)).stray (j % 2 ^ 20) (by omega) (by omega)
        (by omega)
      rw [← pagingMapOffset_negative (by omega) (by omega), ← pagingMapOffset_mod] at hstray
      rw [translate] at hmapped hstray
      rw [translate, translate, hwalk, hmapped, hstray]
    · push Not at hreached
      exact h.other address hreached

/-- Up to `2 ^ 19` pages are mapped as asked, longer ranges only if the rest was there before. -/
theorem paging_map_covers_iff
    (hvirtual : virtualAddress.toNat + 4096 * pages.toNat ≤ 2 ^ 47)
    (hphysical : physicalAddress.toNat + 4096 * pages.toNat ≤ 2 ^ 52) (htree : s.Tree root) :
    ∃ t, pagingMap root virtualAddress physicalAddress pages s = some t ∧
      (s.FreshAnswers root t.requests →
        (RangeCovered root virtualAddress physicalAddress pages s t ↔
          pages.toNat ≤ 2 ^ 19 ∨ UpperMapped root virtualAddress physicalAddress pages s)) := by
  refine ⟨_, pagingMap_eq_min (by omega) s, ?_⟩
  intro hfresh
  have hlinked : SpanLinked root virtualAddress physicalAddress _ s _ :=
    mapPages_linked htree hfresh
  constructor
  · intro hcovered
    exact .inr (hlinked.upperMapped hvirtual rfl hcovered)
  · intro hcondition
    exact hlinked.covered hvirtual hphysical rfl hcondition

end Span

private theorem zeroedPaging_freshAnswers_map {virtualAddress physicalAddress pages : BitVec 64}
    {t : Paging} (hpages : pages.toNat < 2 ^ 31)
    (ht : pagingMap 0x1000 virtualAddress physicalAddress pages zeroedPaging = some t) :
    zeroedPaging.FreshAnswers 0x1000 t.requests := by
  rw [pagingMap_eq hpages, Option.some.injEq] at ht
  have hrequests := (mapPages_requests 0x1000
    (fun i => virtualAddress + pagingMapOffset (BitVec.ofNat 32 i))
    (fun i => physicalAddress + pagingMapOffset (BitVec.ofNat 32 i)) pages.toNat zeroedPaging).2
  rw [ht, show zeroedPaging.requests = 0 from rfl] at hrequests
  apply zeroedPaging_freshAnswers_of_le
  omega

theorem paging_map_covers_three :
    ∃ t, pagingMap 0x1000 0x400000 0x9000 3 zeroedPaging = some t ∧
      zeroedPaging.FreshAnswers 0x1000 t.requests ∧
      RangeCovered 0x1000 0x400000 0x9000 3 zeroedPaging t := by
  obtain ⟨t, ht, hiff⟩ := @paging_map_covers_iff 0x1000 0x400000 0x9000 3 zeroedPaging (by decide)
    (by decide) (zeroedPaging_wellFormedTree 0x1000).1
  have hfresh := zeroedPaging_freshAnswers_map (by decide) ht
  exact ⟨t, ht, hfresh, (hiff hfresh).mpr (.inl (by decide))⟩

/-- With one page more than `2 ^ 19` the last is not mapped. -/
theorem paging_map_last_missing :
    ∃ t, pagingMap 0x1000 0x400000 0x9000 0x80001 zeroedPaging = some t ∧
      zeroedPaging.FreshAnswers 0x1000 t.requests ∧
      ¬RangeCovered 0x1000 0x400000 0x9000 0x80001 zeroedPaging t := by
  obtain ⟨t, ht⟩ := pagingMap_returns 0x1000 0x400000 0x9000 0x80001 zeroedPaging
  have hfresh := zeroedPaging_freshAnswers_map (by decide) ht
  refine ⟨t, ht, hfresh, ?_⟩
  intro hcovered
  rw [pagingMap_eq (by decide), Option.some.injEq] at ht
  have hlinked : SpanLinked 0x1000 0x400000 0x9000 0x80001 zeroedPaging t := by
    rw [← ht] at hfresh ⊢
    exact mapPages_linked (zeroedPaging_wellFormedTree 0x1000).1 hfresh
  have hlast := hcovered.mapped 0x80000 (by decide)
  rw [@SpanLinked.translate_upper 0x1000 0x400000 0x9000 0x80001 _ _ _ hlinked (by decide)
    (by decide) 0x80000 (by decide) (by decide)] at hlast
  exact absurd hlast (by decide)

end VisualOS.Kernel
