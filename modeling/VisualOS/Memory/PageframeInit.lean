import VisualOS.Framework.Transition
import VisualOS.Memory.PageframeRequests

/-!
# The allocator after boot

What `pageframe_init` leaves behind, and the states that later calls can reach from there.
-/

namespace VisualOS.Kernel

open Framework

/-- Between calls: no mutex bit is held, and the bitmap has the size that dividing a 64-bit
byte count by 4096 and by 8 allows. -/
structure Quiet (s : Pageframe) : Prop where
  size : s.pageframemap.size < 2 ^ 49
  mutex : s.mutex = 0

namespace Quiet

variable {s t : Pageframe}

theorem bit_free (h : Quiet s) (bit : PageframeMutexBit) :
    s.mutex.getLsbD bit.toNat = false := by
  rw [h.mutex]
  exact BitVec.getLsbD_zero

theorem frames_eq (h : Quiet s) : s.frames = 8 * s.pageframemap.size := frames_eq_of_size h.size

theorem frames_lt (h : Quiet s) : s.frames < 2 ^ 52 := by
  have hsize := h.size
  rw [h.frames_eq]
  omega

theorem marked {indexes : List Nat} (h : Quiet s) (hm : Marked indexes s t) : Quiet t :=
  ⟨hm.size ▸ h.size, hm.mutex.trans h.mutex⟩

theorem released {indexes : List Nat} (h : Quiet s) (hr : Released indexes s t) : Quiet t :=
  ⟨hr.size ▸ h.size, hr.mutex.trans h.mutex⟩

theorem requested {page : Nat} (h : Quiet s) (hr : Requested s page t) : Quiet t := by
  cases hr with
  | exhausted _ => exact ⟨h.size, h.mutex⟩
  | found _ _ _ _ hm => exact ⟨hm.size ▸ h.size, hm.mutex.trans h.mutex⟩

theorem requestedPages {pages page : Nat} (h : Quiet s) (hr : RequestedPages pages s page t) :
    Quiet t := by
  cases hr with
  | exhausted _ _ => exact ⟨h.size, h.mutex⟩
  | found _ _ _ hm => exact ⟨hm.size ▸ h.size, hm.mutex.trans h.mutex⟩

end Quiet

/-- The frames `pageframe_init` unreserves for one entry of the memory map. -/
def entryFrames (entry : MemoryMapEntry) : List Nat :=
  if entry.type = .usable then
    frameIndexes entry.physicalBase (entry.numPages * 4096 % 2 ^ 64 / 4096)
  else []

/-- The frames of the kernel image, as `pageframe_init` locks them. -/
def kernelFrames (symbols : LinkerSymbols) : List Nat :=
  frameIndexes (symbols.physicalAddress symbols.kernelStart)
    (nearestPage ((symbols.kernelEnd + 2 ^ 64 - symbols.kernelStart) % 2 ^ 64))

/-- The bitmap as `pageframe_init` lays it out, with no frame marked yet. -/
def initialBitmap (memory : Nat → BitVec 8) (memorymap : List MemoryMapEntry)
    (largest : MemoryMapEntry) : Bitmap :=
  bitmapInitialize (fun i => memory (largest.physicalBase + i))
    (totalSize memorymap / 4096 / bitmapScale)

private theorem unreserveEntry_spec {s : Pageframe} (h : Quiet s) (entry : MemoryMapEntry) :
    ∃ t, unreserveEntry s entry = some t ∧ Released (entryFrames entry) s t := by
  by_cases htype : entry.type = .usable
  · obtain ⟨t, ht, hr⟩ := releaseFrames_spec .reserved entry.physicalBase
      (entry.numPages * 4096 % 2 ^ 64 / 4096) (h.bit_free .free)
    refine ⟨t, ?_, ?_⟩
    · rw [unreserveEntry, if_neg (not_not.mpr htype)]
      exact ht
    · rwa [entryFrames, if_pos htype]
  · refine ⟨s, by rw [unreserveEntry, if_pos htype], ?_⟩
    rw [entryFrames, if_neg htype]
    exact ⟨rfl, rfl, rfl, by simp⟩

theorem unreserve_foldlM {s : Pageframe} (h : Quiet s) (memorymap : List MemoryMapEntry) :
    ∃ t, memorymap.foldlM unreserveEntry s = some t ∧
      Released (memorymap.flatMap entryFrames) s t := by
  induction memorymap generalizing s with
  | nil => exact ⟨s, rfl, rfl, rfl, rfl, by simp⟩
  | cons entry memorymap ih =>
      obtain ⟨t, ht, hr⟩ := unreserveEntry_spec h entry
      obtain ⟨u, hu, hr'⟩ := ih (h.released hr)
      refine ⟨u, ?_, hr'.size.trans hr.size, ?_, hr'.mutex.trans hr.mutex, ?_⟩
      · rw [List.foldlM_cons, ht]
        exact hu
      · rw [hr'.currentIndex, hr.currentIndex, List.flatMap_cons, List.foldl_append]
      · intro j
        rw [hr'.inUse, hr.inUse, List.flatMap_cons]
        simp only [List.mem_append, Bool.decide_or, Bool.not_or, Bool.and_assoc]

theorem totalSize_lt (memorymap : List MemoryMapEntry) : totalSize memorymap < 2 ^ 64 := by
  unfold totalSize
  induction memorymap using List.reverseRecOn with
  | nil => simp
  | append_singleton memorymap entry _ =>
      rw [List.foldl_append]
      exact Nat.mod_lt _ (by decide)

/-- Everything `pageframe_init` does to a state variable: the passes over the bitmap are
applied in the order of the source, each with the frames it visits. -/
structure Booted (memory : Nat → BitVec 8) (symbols : LinkerSymbols)
    (memorymap : List MemoryMapEntry) (largest : MemoryMapEntry) (s : Pageframe) : Prop where
  quiet : Quiet s
  size : s.pageframemap.size = totalSize memorymap / 4096 / 8
  currentIndex : s.currentIndex = 0
  inUse : ∀ i ≤ s.frames, s.inUse i = true ↔
    ((bitmapGet (initialBitmap memory memorymap largest) i = true ∨
        i ∈ frameIndexes 0 (totalSize memorymap / 4096)) ∧
      i ∉ memorymap.flatMap entryFrames) ∨
    i ∈ frameIndexes largest.physicalBase (nearestPage s.pageframemap.size) ∨
    i ∈ kernelFrames symbols ∨ i ∈ frameIndexes 0 pageframeInitialReservePages

theorem pageframeInit_spec (memory : Nat → BitVec 8) (symbols : LinkerSymbols)
    {memorymap : List MemoryMapEntry} {largest : MemoryMapEntry}
    (hlargest : largestPrimary memorymap = some largest) :
    ∃ s, pageframeInit memory symbols memorymap = some s ∧
      Booted memory symbols memorymap largest s := by
  have htotal := totalSize_lt memorymap
  let s₀ : Pageframe :=
    { memoryTotalSize := totalSize memorymap
      memoryUsedSize := 0
      memoryReservedSize := 0
      pageframemap := initialBitmap memory memorymap largest
      currentIndex := 0
      mutex := 0 }
  have h₀ : Quiet s₀ := by
    refine ⟨?_, rfl⟩
    change totalSize memorymap / 4096 / 8 < 2 ^ 49
    omega
  obtain ⟨s₁, e₁, m₁⟩ := markFrames_spec .reserved 0 (totalSize memorymap / 4096) (h₀.bit_free .lock)
  have h₁ := h₀.marked m₁
  obtain ⟨s₂, e₂, r₂⟩ := unreserve_foldlM h₁ memorymap
  have h₂ := h₁.released r₂
  obtain ⟨s₃, e₃, m₃⟩ := markFrames_spec .used largest.physicalBase
    (nearestPage s₂.pageframemap.size) (h₂.bit_free .lock)
  have h₃ := h₂.marked m₃
  obtain ⟨s₄, e₄, m₄⟩ := markFrames_spec .used (symbols.physicalAddress symbols.kernelStart)
    (nearestPage ((symbols.kernelEnd + 2 ^ 64 - symbols.kernelStart) % 2 ^ 64))
    (h₃.bit_free .lock)
  have h₄ := h₃.marked m₄
  obtain ⟨s₅, e₅, m₅⟩ := markFrames_spec .reserved 0 pageframeInitialReservePages
    (h₄.bit_free .lock)
  have hsize₂ : s₂.pageframemap.size = s₀.pageframemap.size := r₂.size.trans m₁.size
  have hsize₅ : s₅.pageframemap.size = s₂.pageframemap.size :=
    m₅.size.trans (m₄.size.trans m₃.size)
  refine ⟨s₅, ?_, h₄.marked m₅, hsize₅.trans hsize₂, ?_, ?_⟩
  · rw [pageframeInit, hlargest]
    change (pageframeReserve 0 (totalSize memorymap / 4096) s₀).bind _ = _
    rw [pageframeReserve, e₁]
    change (memorymap.foldlM unreserveEntry s₁).bind _ = _
    rw [e₂]
    change (pageframeLock _ _ s₂).bind _ = _
    rw [pageframeLock, e₃]
    change (pageframeLock _ _ s₃).bind _ = _
    rw [pageframeLock, e₄]
    exact e₅
  · -- The hint starts at 0 and the passes can only lower it.
    rw [m₅.currentIndex, m₄.currentIndex, m₃.currentIndex]
    have hle := r₂.hint_le
    rw [m₁.currentIndex] at hle
    exact Nat.le_zero.mp hle
  · intro i hi
    have hi₄ : i ≤ s₄.frames := m₅.frames ▸ hi
    have hi₃ : i ≤ s₃.frames := m₄.frames ▸ hi₄
    have hi₂ : i ≤ s₂.frames := m₃.frames ▸ hi₃
    have hi₀ : i ≤ s₀.frames := by rwa [r₂.frames, m₁.frames] at hi₂
    rw [m₅.inUse, m₄.inUse, m₃.inUse, r₂.inUse, m₁.inUse, hsize₅]
    simp only [hi₄, hi₃, hi₂, hi₀, decide_true, Bool.and_true, Bool.or_eq_true, Bool.and_eq_true,
      Bool.not_eq_true', decide_eq_true_eq, decide_eq_false_iff_not, or_assoc]
    rfl

theorem pageframeInit_booted {memory : Nat → BitVec 8} {symbols : LinkerSymbols}
    {memorymap : List MemoryMapEntry} {s : Pageframe}
    (h : pageframeInit memory symbols memorymap = some s) :
    ∃ largest, largestPrimary memorymap = some largest ∧
      Booted memory symbols memorymap largest s := by
  cases hlargest : largestPrimary memorymap with
  | none =>
      rw [pageframeInit, hlargest] at h
      simp at h
  | some largest =>
      obtain ⟨s', hs', hbooted⟩ := pageframeInit_spec memory symbols hlargest
      rw [h, Option.some.injEq] at hs'
      exact ⟨largest, rfl, hs' ▸ hbooted⟩

theorem Booted.frame_zero {memory : Nat → BitVec 8} {symbols : LinkerSymbols}
    {memorymap : List MemoryMapEntry} {largest : MemoryMapEntry} {s : Pageframe}
    (h : Booted memory symbols memorymap largest s) : s.inUse 0 = true := by
  refine (h.inUse 0 (Nat.zero_le _)).mpr (.inr (.inr (.inr ?_)))
  rw [mem_frameIndexes (by decide)]
  decide

/-- A small machine: a megabyte of low memory, then eight usable frames of which the first
holds the bitmap. -/
def smallMap : List MemoryMapEntry := [⟨0, 256, .unusable⟩, ⟨0x100000, 8, .usable⟩]

/-- A kernel image of the given size, two frames above the megabyte. -/
def smallSymbols (kernelPages : Nat) : LinkerSymbols where
  virtualBase := 0xffffffff80000000
  kernelStart := 0xffffffff80102000
  kernelEnd := 0xffffffff80102000 + kernelPages * 4096

theorem smallBoot (kernelPages : Nat) (h : kernelPages ≤ 6) :
    ∃ s, pageframeInit (fun _ => 0) (smallSymbols kernelPages) smallMap = some s ∧ Quiet s ∧
      s.frames = 264 ∧ s.currentIndex = 0 ∧
      ∀ i ≤ 264, s.inUse i = true ↔ i < 257 ∨ 258 ≤ i ∧ i < 258 + kernelPages := by
  obtain ⟨s, hs, hbooted⟩ := pageframeInit_spec (fun _ => 0) (smallSymbols kernelPages)
    (show largestPrimary smallMap = some ⟨0x100000, 8, .usable⟩ from rfl)
  have htotal : totalSize smallMap = 264 * 4096 := rfl
  have hsize : s.pageframemap.size = 33 := by rw [hbooted.size, htotal]
  have hframes : s.frames = 264 := by rw [hbooted.quiet.frames_eq, hsize]
  refine ⟨s, hs, hbooted.quiet, hframes, hbooted.currentIndex, ?_⟩
  intro i hi
  have hentries : i ∈ smallMap.flatMap entryFrames ↔ 256 ≤ i ∧ i < 264 := by
    simp only [smallMap, entryFrames, List.flatMap_cons, List.flatMap_nil, reduceCtorEq, if_false,
      if_true, List.nil_append, List.append_nil]
    rw [mem_frameIndexes (by decide)]
    norm_num
  have hkernel : i ∈ kernelFrames (smallSymbols kernelPages) ↔
      258 ≤ i ∧ i < 258 + kernelPages := by
    have hbytes : (0xffffffff80102000 + kernelPages * 4096 + 2 ^ 64 - 0xffffffff80102000) %
        2 ^ 64 = kernelPages * 4096 := by omega
    have hpages : nearestPage (kernelPages * 4096) = kernelPages := by
      rw [nearestPage, roundUp, if_pos (Nat.mul_mod_left _ _),
        Nat.mul_div_cancel _ (by decide)]
    have hstart : (0xffffffff80102000 + 2 ^ 64 - 0xffffffff80000000) % 2 ^ 64 = 0x102000 := by
      norm_num
    change i ∈ frameIndexes ((0xffffffff80102000 + 2 ^ 64 - 0xffffffff80000000) % 2 ^ 64)
      (nearestPage ((0xffffffff80102000 + kernelPages * 4096 + 2 ^ 64 - 0xffffffff80102000) %
        2 ^ 64)) ↔ _
    rw [hbytes, hpages, hstart, mem_frameIndexes (by omega)]
  have hinitial : bitmapGet (initialBitmap (fun _ => 0) smallMap ⟨0x100000, 8, .usable⟩) i =
      false := by
    simp [initialBitmap, bitmapInitialize, bitmapGet]
  rw [hbooted.inUse i (by omega), hentries, hkernel, hinitial, hsize, htotal,
    mem_frameIndexes (by decide), mem_frameIndexes (by decide), mem_frameIndexes (by decide)]
  simp only [show nearestPage 33 = 1 from rfl, pageframeInitialReservePages,
    Bool.false_eq_true, false_or]
  omega

inductive PageframeAction
  | request
  | requestPages (pages : Nat)
  | free (physicalAddress pages : Nat)
  | lock (physicalAddress pages : Nat)
  | reserve (physicalAddress pages : Nat)
  | unreserve (physicalAddress pages : Nat)

/-- One call of an allocator function that returns. -/
inductive PageframeStep : Pageframe → PageframeAction → Pageframe → Prop
  | request {s t : Pageframe} {page : Nat} :
      pageframeRequest s = some (page, t) → PageframeStep s .request t
  | requestPages {s t : Pageframe} {rounds pages page : Nat} :
      pageframeRequestPages rounds pages s = some (page, t) →
      PageframeStep s (.requestPages pages) t
  | free {s t : Pageframe} {physicalAddress pages : Nat} :
      pageframeFree physicalAddress pages s = some t →
      PageframeStep s (.free physicalAddress pages) t
  | lock {s t : Pageframe} {physicalAddress pages : Nat} :
      pageframeLock physicalAddress pages s = some t →
      PageframeStep s (.lock physicalAddress pages) t
  | reserve {s t : Pageframe} {physicalAddress pages : Nat} :
      pageframeReserve physicalAddress pages s = some t →
      PageframeStep s (.reserve physicalAddress pages) t
  | unreserve {s t : Pageframe} {physicalAddress pages : Nat} :
      pageframeUnreserve physicalAddress pages s = some t →
      PageframeStep s (.unreserve physicalAddress pages) t

/-- The states that calls can lead to after `pageframe_init`. -/
def PageframeReachable (s : Pageframe) : Prop :=
  ∃ memory symbols memorymap s₀ actions,
    pageframeInit memory symbols memorymap = some s₀ ∧ Run PageframeStep s₀ actions s

theorem Quiet.step {s t : Pageframe} {a : PageframeAction} (h : Quiet s)
    (hstep : PageframeStep s a t) : Quiet t := by
  cases hstep with
  | request hr => exact h.requested (pageframeRequest_requested h.frames_lt hr)
  | requestPages hr => exact h.requestedPages (pageframeRequestPages_requested hr)
  | free hr => exact h.released (releaseFrames_released hr)
  | lock hm => exact h.marked (markFrames_marked hm)
  | reserve hm => exact h.marked (markFrames_marked hm)
  | unreserve hr => exact h.released (releaseFrames_released hr)

theorem PageframeReachable.quiet {s : Pageframe} (h : PageframeReachable s) : Quiet s := by
  obtain ⟨memory, symbols, memorymap, s₀, actions, hinit, hrun⟩ := h
  obtain ⟨largest, -, hbooted⟩ := pageframeInit_booted hinit
  exact hrun.invariant (fun _ _ _ hq hstep => hq.step hstep) hbooted.quiet

end VisualOS.Kernel
