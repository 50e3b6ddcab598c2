import VisualOS.Memory.BootMap
import VisualOS.Memory.PageframeAccounting
import VisualOS.Memory.PageframeAvailability
import VisualOS.Sys.Memory

/-!
# What `mmap` answers, and what `munmap` takes back

`sys_mmap` hands on what the allocator says, and that is a page address or `NULL`.  So a caller
that tests for `MAP_FAILED` never sees a failure: an answer is right only if it is a block.  Given
a block, `sys_munmap` is the exact inverse.
-/

namespace VisualOS.Kernel

/-- `MAP_FAILED`, that is `(void *) -1`. -/
def mapFailed : BitVec 64 := -1

/-- At `block` there are pages for `len` bytes, all free before the call and in use after it. -/
def MmapBlock (len : BitVec 64) (s t : Pageframe) (block : BitVec 64) : Prop :=
  block.toNat % 4096 = 0 ∧ ∃ pages, len.toNat ≤ 4096 * pages ∧ ∀ j < pages,
    block.toNat / 4096 + j < s.frames ∧ s.inUse (block.toNat / 4096 + j) = false ∧
      t.inUse (block.toNat / 4096 + j) = true

/-- The call returns with a block, or there is none to be had and it says so and changes
nothing. -/
def MmapAtomic (addr len : BitVec 64) (prot flags fd : BitVec 32) (offset : BitVec 64)
    (s : SysMemory) : Prop :=
  ∃ rounds result t, sysMmap rounds addr len prot flags fd offset s = some (result, t) ∧
    (MmapBlock len s.allocator t.allocator result ∨
      (∀ pages, len.toNat ≤ 4096 * pages → ¬ HasRun s.allocator pages) ∧ result = mapFailed ∧
        t.allocator.pageframemap = s.allocator.pageframemap ∧ t.paging.memory = s.paging.memory)

/-- From the hint on there is a free run for `len` bytes, and their number does not wrap around
when it is rounded up. -/
def FitsFromHint (len : BitVec 64) (s : Pageframe) : Prop :=
  len.toNat ≤ 2 ^ 64 - 4096 ∧ ∃ r, s.currentIndex ≤ r ∧ r + nearestPage len.toNat ≤ s.frames ∧
    ∀ j < nearestPage len.toNat, s.inUse (r + j) = false

section Calls

variable {s t : SysMemory} {addr len offset block : BitVec 64} {prot flags fd : BitVec 32}
  {rounds : Nat}

private theorem sysMmap_returns (hquiet : Quiet s.allocator) (addr len : BitVec 64)
    (prot flags fd : BitVec 32) (offset : BitVec 64) :
    ∃ rounds block t, sysMmap rounds addr len prot flags fd offset s = some (block, t) := by
  have hframes := hquiet.frames_lt
  have hpages := nearestPage_lt len.isLt
  obtain ⟨c, hscans, hend⟩ := scans_stop s.allocator (nearestPage len.toNat)
    s.allocator.currentIndex (by omega)
  obtain ⟨rounds, a, ha⟩ := pageframeRequestPages_returns hscans hend (hquiet.bit_free .request)
    (hquiet.bit_free .lock)
  refine ⟨rounds, ?_⟩
  simp only [sysMmap, ha, Option.bind_eq_bind, Option.bind_some, Option.pure_def,
    Option.some.injEq, Prod.mk.injEq]
  exact ⟨_, _, rfl, rfl⟩

private theorem sysMmap_some (hquiet : Quiet s.allocator)
    (h : sysMmap rounds addr len prot flags fd offset s = some (block, t)) :
    ∃ c, Scans s.allocator (nearestPage len.toNat) s.allocator.currentIndex c ∧
      (s.allocator.frames ≤ c ∧ block = 0 ∧ t.allocator = { s.allocator with currentIndex := c } ∨
        c < s.allocator.frames ∧ Clear s.allocator (nearestPage len.toNat) c ∧
          block.toNat = c * 4096 ∧
          ∃ u, pageframeLock (c * 4096) (nearestPage len.toNat)
            { s.allocator with
              currentIndex := (c + nearestPage len.toNat) % 2 ^ 64
              mutex := s.allocator.mutex |||
                BitVec.twoPow 64 PageframeMutexBit.request.toNat } = some u ∧
            t.allocator = pageframeUnlock .request u) := by
  have hframes := hquiet.frames_lt
  simp only [sysMmap, Option.bind_eq_bind, Option.bind_eq_some_iff, Option.pure_def,
    Option.some.injEq, Prod.mk.injEq] at h
  obtain ⟨⟨page, allocator⟩, hrequest, rfl, rfl⟩ := h
  obtain ⟨c, hscans, ⟨hend, rfl, rfl⟩ | ⟨hlt, hclear, rfl, -, u, hlock, rfl⟩⟩ :=
    pageframeRequestPages_some hrequest
  · exact ⟨c, hscans, .inl ⟨hend, rfl, rfl⟩⟩
  · have hpage : c * 4096 % 2 ^ 64 = c * 4096 := Nat.mod_eq_of_lt (by omega)
    rw [hpage] at hlock
    refine ⟨c, hscans, .inr ⟨hlt, hclear, ?_, u, hlock, rfl⟩⟩
    rw [BitVec.toNat_ofNat, Nat.mod_mod, hpage]

private theorem sysMmap_aligned (hquiet : Quiet s.allocator)
    (h : sysMmap rounds addr len prot flags fd offset s = some (block, t)) :
    block.toNat % 4096 = 0 := by
  obtain ⟨c, -, ⟨-, rfl, -⟩ | ⟨-, -, hblock, -⟩⟩ := sysMmap_some hquiet h
  · rfl
  · omega

private theorem inUse_of_lock {c pages j : Nat} {a b u : Pageframe}
    (h : pageframeLock (c * 4096) pages a = some u) (hb : b = pageframeUnlock .request u)
    (hwrap : c + pages < 2 ^ 64) (hj : j < pages) (hle : c + j ≤ a.frames) :
    b.inUse (c + j) = true := by
  subst hb
  change u.inUse (c + j) = true
  rw [(markFrames_marked h).inUse]
  have hmem : c + j ∈ frameIndexes (c * 4096) pages := by
    rw [mem_frameIndexes (by omega)]
    omega
  simp [hmem, hle]

private theorem MmapAtomic.fits (hquiet : Quiet s.allocator)
    (h : MmapAtomic addr len prot flags fd offset s) :
    len = 0 ∨ FitsFromHint len s.allocator := by
  obtain ⟨rounds, block, t, hcall, ⟨-, pages, hlen, hblock⟩ | ⟨-, rfl, -⟩⟩ := h
  · rcases Nat.eq_zero_or_pos pages with rfl | hpos
    · left
      exact BitVec.eq_of_toNat_eq (by simpa using hlen)
    · right
      have hframes := hquiet.frames_lt
      obtain ⟨hlast, -, -⟩ := hblock (pages - 1) (by omega)
      have hsmall : len.toNat ≤ 2 ^ 64 - 4096 := by omega
      have hround := nearestPage_eq hsmall
      obtain ⟨c, hscans, ⟨-, rfl, ht⟩ | ⟨hlt, -, hpage, -⟩⟩ := sysMmap_some hquiet hcall
      · -- `NULL` at the end of the bitmap: frame 0 is as it was.
        obtain ⟨-, hbefore, hafter⟩ := hblock 0 hpos
        rw [ht, Pageframe.inUse_hint, hbefore] at hafter
        exact absurd hafter (by decide)
      · have hc : block.toNat / 4096 = c := by omega
        rw [hc] at hlast hblock
        refine ⟨hsmall, c, le_of_scans (by omega) hscans, by omega, ?_⟩
        intro j hj
        exact (hblock j (by omega)).2.1
  · have haligned := sysMmap_aligned hquiet hcall
    exact absurd haligned (by decide)

private theorem FitsFromHint.mmapBlock (hquiet : Quiet s.allocator)
    (h : FitsFromHint len s.allocator)
    (hlen : len ≠ 0) (hcall : sysMmap rounds addr len prot flags fd offset s = some (block, t)) :
    MmapBlock len s.allocator t.allocator block := by
  obtain ⟨hsmall, r, hr, hend, hfree⟩ := h
  have hframes := hquiet.frames_lt
  have hround := nearestPage_eq hsmall
  have hpos : 0 < len.toNat := by
    rw [Nat.pos_iff_ne_zero]
    exact fun hzero => hlen (BitVec.eq_of_toNat_eq hzero)
  refine ⟨sysMmap_aligned hquiet hcall, nearestPage len.toNat, by omega, ?_⟩
  obtain ⟨c, hscans, hcases⟩ := sysMmap_some hquiet hcall
  have hc : c ≤ r := scans_le hframes hend hfree hr hscans
  obtain ⟨hstop, -, -⟩ | ⟨-, hclear, hpage, u, hlock, ht⟩ := hcases
  · omega
  · intro j hj
    have hclear := hclear j hj
    rw [Nat.mod_eq_of_lt (by omega)] at hclear
    rw [show block.toNat / 4096 = c by omega]
    refine ⟨by omega, hclear, ?_⟩
    exact inUse_of_lock hlock ht (by omega) hj (show c + j ≤ s.allocator.frames by omega)

/-- The allocator's answer is never `MAP_FAILED`, so only a call that finds a block does as it
should. -/
theorem mmapAtomic_iff (hquiet : Quiet s.allocator) :
    MmapAtomic addr len prot flags fd offset s ↔ len = 0 ∨ FitsFromHint len s.allocator := by
  constructor
  · exact MmapAtomic.fits hquiet
  · intro h
    obtain ⟨rounds, block, t, hcall⟩ := sysMmap_returns hquiet addr len prot flags fd offset
    refine ⟨rounds, block, t, hcall, .inl ?_⟩
    by_cases hlen : len = 0
    · subst hlen
      exact ⟨sysMmap_aligned hquiet hcall, 0, by decide, by simp⟩
    · exact (h.resolve_left hlen).mmapBlock hquiet hlen hcall

end Calls

private theorem smallMemory_quiet : Quiet smallMemory.allocator := ⟨by decide, rfl⟩

theorem mmapAtomic_smallMemory : Quiet smallMemory.allocator ∧
    MmapAtomic 0 0x1800 2 0x22 0 0 smallMemory := by
  have hfits : FitsFromHint 0x1800 smallMemory.allocator :=
    ⟨by decide, 1, by decide, by decide, by decide⟩
  exact ⟨smallMemory_quiet, (mmapAtomic_iff smallMemory_quiet).mpr (.inr hfits)⟩

/-- The same eight frames, all in use. -/
def fullMemory : SysMemory :=
  { smallMemory with
    allocator := { eightFrames with
      memoryUsedSize := 32768
      pageframemap := ⟨fun i => if i = 0 then 0b11111111 else 0, 1⟩ } }

/-- With no frame left the caller gets `NULL`, which is not `MAP_FAILED`, and the page tables of
address 0 have been made writable. -/
theorem mmap_answers_null :
    (∃ t, sysMmap 9 0 1 2 0x22 0 0 fullMemory = some (0, t) ∧
      t.paging.memory 1 0 ≠ fullMemory.paging.memory 1 0) ∧
      ¬ MmapAtomic 0 1 2 0x22 0 0 fullMemory := by
  refine ⟨⟨_, rfl, by decide⟩, ?_⟩
  intro h
  rcases h.fits ⟨by decide, rfl⟩ with hzero | ⟨-, r, -, hend, hfree⟩
  · exact absurd hzero (by decide)
  · have hfull : ∀ r < 8, fullMemory.allocator.inUse r = true := by decide
    have hr : r < 8 := hend
    exact absurd (hfree 0 (by decide)) (by simp [hfull r hr])

/-! ## What `munmap` takes back -/

section Undo

variable {physicalAddress pages : Nat} {s u w v : Pageframe}

/-- Freeing the frames that a lock has marked clears exactly the bits it has set. -/
theorem pageframemap_restored (hlock : pageframeLock physicalAddress pages s = some u)
    (hfree : pageframeFree physicalAddress pages w = some v)
    (hmap : w.pageframemap = u.pageframemap)
    (hclear : ∀ j ∈ frameIndexes physicalAddress pages, s.bit j = false) :
    v.pageframemap = s.pageframemap := by
  have hmarked := markFrames_marked hlock
  have hframes : w.frames = s.frames := by
    rw [frames_of_size (congrArg Bitmap.size hmap), hmarked.frames]
  apply Bitmap.ext_bits
  · rw [(releaseFrames_released hfree).size, hmap, hmarked.size]
  · intro j
    change v.bit j = s.bit j
    have hw : w.bit j = u.bit j := by rw [Pageframe.bit, hmap, Pageframe.bit]
    rw [releaseFrames_bit hfree, hw, markFrames_bit hlock, hframes]
    by_cases hj : j ∈ frameIndexes physicalAddress pages
    · rw [hclear j hj]
      simp
    · simp [hj]

private theorem counter_restored (hlock : pageframeLock physicalAddress pages s = some u)
    (hfree : pageframeFree physicalAddress pages w = some v)
    (hcounters : ∀ counter, w.counter counter = u.counter counter)
    (hinside : ∀ j ∈ frameIndexes physicalAddress pages, j ≤ s.frames)
    (hused : s.counter .used + 4096 * (frameIndexes physicalAddress pages).length < 2 ^ 64)
    (counter : MemoryCounter) : v.counter counter = s.counter counter := by
  have hlt : s.counter .used < 2 ^ 64 := Nat.lt_of_le_of_lt (Nat.le_add_right _ _) hused
  obtain ⟨-, hgrown, hother⟩ := markFrames_counter hlock hlt
  have hall : (frameIndexes physicalAddress pages).countP (· ≤ s.frames) =
      (frameIndexes physicalAddress pages).length := by
    rw [List.countP_eq_length]
    intro j hj
    exact decide_eq_true (hinside j hj)
  rw [hall, Nat.mod_eq_of_lt hused] at hgrown
  obtain ⟨-, hshrunk, hother'⟩ := releaseFrames_counter hfree (by
    rw [hcounters, hgrown]
    exact Nat.le_add_left _ _)
  cases counter with
  | used =>
      rw [hcounters, hgrown] at hshrunk
      exact Nat.add_right_cancel hshrunk
  | reserved => rw [hother' .reserved (by decide), hcounters, hother .reserved (by decide)]

end Undo

/-- Unmapping a block restores the allocator, but for the hint, which ends at or below it. -/
theorem sysMunmap_sysMmap {s t : SysMemory} {addr len offset block : BitVec 64}
    {prot flags fd : BitVec 32} {rounds : Nat} (hquiet : Quiet s.allocator)
    (hmmap : sysMmap rounds addr len prot flags fd offset s = some (block, t))
    (hblock : block ≠ 0 ∨ s.allocator.inUse 0 = false ∧ t.allocator.inUse 0 = true)
    (hinside : block.toNat / 4096 + nearestPage len.toNat ≤ s.allocator.frames)
    (hused : memoryGetUsedSize s.allocator + 4096 * nearestPage len.toNat < 2 ^ 64) :
    ∃ u, sysMunmap block len t = some (0, u) ∧
      u.allocator.pageframemap = s.allocator.pageframemap ∧
      memoryGetUsedSize u.allocator = memoryGetUsedSize s.allocator ∧
      memoryGetReservedSize u.allocator = memoryGetReservedSize s.allocator ∧
      u.allocator.currentIndex ≤ block.toNat / 4096 := by
  have hframes := hquiet.frames_lt
  have hquiet' : Quiet t.allocator := by
    simp only [sysMmap, Option.bind_eq_bind, Option.bind_eq_some_iff, Option.pure_def,
      Option.some.injEq, Prod.mk.injEq] at hmmap
    obtain ⟨⟨page, allocator⟩, hrequest, -, rfl⟩ := hmmap
    exact hquiet.requestedPages (pageframeRequestPages_requested hrequest)
  obtain ⟨v, hfree, hreleased⟩ := releaseFrames_spec .used block.toNat (nearestPage len.toNat)
    (hquiet'.bit_free .free)
  refine ⟨{ t with allocator := v }, ?_, ?_⟩
  · rw [sysMunmap, pageframeFree, hfree]
    rfl
  obtain ⟨c, -, ⟨-, rfl, ht⟩ | ⟨hlt, hclear, hpage, u, hlock, ht⟩⟩ := sysMmap_some hquiet hmmap
  · -- `NULL` at the end of the bitmap is not a block.
    rcases hblock with hnull | ⟨hbefore, hafter⟩
    · exact absurd rfl hnull
    · rw [ht, Pageframe.inUse_hint, hbefore] at hafter
      exact absurd hafter (by decide)
  · rw [hpage] at hfree hreleased hinside ⊢
    rw [Nat.mul_div_cancel c (by decide)] at hinside ⊢
    have hmem : ∀ j ∈ frameIndexes (c * 4096) (nearestPage len.toNat),
        c ≤ j ∧ j < c + nearestPage len.toNat := by
      intro j hj
      rw [mem_frameIndexes (by omega)] at hj
      omega
    have hlength : (frameIndexes (c * 4096) (nearestPage len.toNat)).length =
        nearestPage len.toNat := by
      rw [frameIndexes, List.length_range']
      omega
    have hcounter := counter_restored hlock hfree
      (fun counter => by rw [ht]; cases counter <;> rfl)
      (fun j hj => show j ≤ s.allocator.frames by have := hmem j hj; omega)
      (by rwa [hlength])
    refine ⟨?_, hcounter .used, hcounter .reserved, ?_⟩
    · apply pageframemap_restored hlock hfree (by rw [ht]; rfl)
      intro j hj
      obtain ⟨hge, hlt'⟩ := hmem j hj
      have hj := hclear (j - c) (by omega)
      rw [show (c + (j - c)) % 2 ^ 64 = j by omega] at hj
      exact (bit_eq_inUse (s := s.allocator) (by omega)).trans hj
    · rcases Nat.eq_zero_or_pos (nearestPage len.toNat) with hzero | hpos
      · -- Nothing was asked for: the hint stands at the block.
        have hcurrent : t.allocator.currentIndex = c % 2 ^ 64 := by
          rw [ht, pageframeUnlock, (markFrames_marked hlock).currentIndex, hzero]
          rfl
        exact hreleased.hint_le.trans (hcurrent ▸ Nat.mod_le c _)
      · apply hreleased.hint_le_mem
        rw [mem_frameIndexes (by omega)]
        omega

theorem sysMunmap_sysMmap_twoPages : ∃ t u,
    sysMmap 2 0 0x1800 2 0x22 0 0 smallMemory = some (0x1000, t) ∧
      sysMunmap 0x1000 0x1800 t = some (0, u) ∧
      u.allocator.pageframemap = smallMemory.allocator.pageframemap ∧
      memoryGetUsedSize u.allocator = memoryGetUsedSize smallMemory.allocator ∧
      memoryGetReservedSize u.allocator = memoryGetReservedSize smallMemory.allocator ∧
      u.allocator.currentIndex ≤ (0x1000 : BitVec 64).toNat / 4096 := by
  have hmmap : ∃ t, sysMmap 2 0 0x1800 2 0x22 0 0 smallMemory = some (0x1000, t) := ⟨_, rfl⟩
  obtain ⟨t, hmmap⟩ := hmmap
  obtain ⟨u, hu⟩ := sysMunmap_sysMmap smallMemory_quiet hmmap (.inl (by decide)) (by decide)
    (by decide)
  exact ⟨t, u, hmmap, hu⟩

end VisualOS.Kernel
