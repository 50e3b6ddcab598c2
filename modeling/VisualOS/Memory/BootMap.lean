import VisualOS.Memory.PageframeInit

/-!
# The memory map at boot

The memory map as `stivale2.c` hands it to the kernel, and what `pageframe_init` makes of it:
which frames are free afterwards, and which usable frames the bitmap does not reach.
-/

namespace VisualOS.Kernel

structure Stivale2MemoryMapEntry where
  base : BitVec 64
  length : BitVec 64
  type : BitVec 32

/-- `STIVALE2_MEMORY_TYPE_USABLE`. -/
def stivale2MemoryTypeUsable : BitVec 32 := 1

def stivale2GetMemorymap (entries : List Stivale2MemoryMapEntry) : List MemoryMapEntry :=
  entries.map fun entry =>
    { physicalBase := entry.base.toNat
      numPages := nearestPage entry.length.toNat
      type := if entry.type = stivale2MemoryTypeUsable then .usable else .unusable }

namespace MemoryMapEntry

/-- The frame lies inside the region. -/
def HasFrame (entry : MemoryMapEntry) (i : Nat) : Prop :=
  entry.physicalBase ≤ i * 4096 ∧ i * 4096 < entry.physicalBase + entry.numPages * 4096

instance (entry : MemoryMapEntry) (i : Nat) : Decidable (entry.HasFrame i) :=
  inferInstanceAs (Decidable (_ ∧ _))

/-- The size of a region in bytes fits 64 bits. -/
def Sized (entry : MemoryMapEntry) : Prop :=
  entry.physicalBase < 2 ^ 64 ∧ entry.numPages < 2 ^ 52

theorem hasFrame_iff {entry : MemoryMapEntry} (h : entry.physicalBase % 4096 = 0) (i : Nat) :
    entry.HasFrame i ↔
      entry.physicalBase / 4096 ≤ i ∧ i < entry.physicalBase / 4096 + entry.numPages := by
  unfold HasFrame
  omega

end MemoryMapEntry

theorem nearestPage_lt {n : Nat} (h : n < 2 ^ 64) : nearestPage n < 2 ^ 52 := by
  unfold nearestPage roundUp
  split <;> omega

theorem nearestPage_eq {n : Nat} (h : n ≤ 2 ^ 64 - 4096) : nearestPage n = (n + 4095) / 4096 := by
  unfold nearestPage roundUp
  split <;> omega

private theorem stivale2GetMemorymap_sized (entries : List Stivale2MemoryMapEntry) :
    ∀ entry ∈ stivale2GetMemorymap entries, entry.Sized := by
  intro entry hentry
  simp only [stivale2GetMemorymap, List.mem_map] at hentry
  obtain ⟨e, -, rfl⟩ := hentry
  exact ⟨e.base.isLt, nearestPage_lt e.length.isLt⟩

/-- The entry is the first among the usable entries with the most pages. -/
def FirstLargest (memorymap : List MemoryMapEntry) (largest : MemoryMapEntry) : Prop :=
  ∃ before after, memorymap = before ++ largest :: after ∧ largest.type = .usable ∧
    (∀ e ∈ before, e.type = .usable → e.numPages < largest.numPages) ∧
    ∀ e ∈ after, e.type = .usable → e.numPages ≤ largest.numPages

private theorem FirstLargest.mem {memorymap : List MemoryMapEntry} {largest : MemoryMapEntry}
    (h : FirstLargest memorymap largest) : largest ∈ memorymap := by
  obtain ⟨before, after, rfl, -⟩ := h
  simp

private theorem FirstLargest.le {memorymap : List MemoryMapEntry} {largest : MemoryMapEntry}
    (h : FirstLargest memorymap largest) {e : MemoryMapEntry} (he : e ∈ memorymap)
    (htype : e.type = .usable) : e.numPages ≤ largest.numPages := by
  obtain ⟨before, after, rfl, -, hbefore, hafter⟩ := h
  rcases List.mem_append.mp he with he | he
  · exact (hbefore e he htype).le
  · rcases List.mem_cons.mp he with rfl | he
    · exact le_rfl
    · exact hafter e he htype

private theorem FirstLargest.eq_of_before {before before' after after' rest : List MemoryMapEntry}
    {largest largest' : MemoryMapEntry} (hbefore : before' = before ++ rest)
    (hrest : largest :: after = rest ++ largest' :: after') (htype : largest.type = .usable)
    (htype' : largest'.type = .usable)
    (hless : ∀ e ∈ before', e.type = .usable → e.numPages < largest'.numPages)
    (hle : ∀ e ∈ after, e.type = .usable → e.numPages ≤ largest.numPages) : largest = largest' := by
  cases rest with
  | nil => exact (List.cons.inj hrest).1
  | cons e rest =>
      obtain ⟨rfl, rfl⟩ := List.cons.inj hrest
      have hlt := hless largest (by simp [hbefore]) htype
      have hge := hle largest' (by simp) htype'
      omega

private theorem FirstLargest.unique {memorymap : List MemoryMapEntry}
    {largest largest' : MemoryMapEntry}
    (h : FirstLargest memorymap largest) (h' : FirstLargest memorymap largest') :
    largest = largest' := by
  obtain ⟨before, after, rfl, htype, hless, hle⟩ := h
  obtain ⟨before', after', heq, htype', hless', hle'⟩ := h'
  rcases List.append_eq_append_iff.mp heq with ⟨rest, hbefore, hrest⟩ | ⟨rest, hbefore, hrest⟩
  · exact eq_of_before hbefore hrest htype htype' hless' hle
  · exact (eq_of_before hbefore hrest htype' htype hless hle').symm

private theorem FirstLargest.append {memorymap : List MemoryMapEntry} {largest e : MemoryMapEntry}
    (h : FirstLargest memorymap largest)
    (he : e.type = .usable → e.numPages ≤ largest.numPages) :
    FirstLargest (memorymap ++ [e]) largest := by
  obtain ⟨before, after, rfl, husable, hbefore, hafter⟩ := h
  refine ⟨before, after ++ [e], by simp, husable, hbefore, ?_⟩
  intro e' he'
  rcases List.mem_append.mp he' with he' | he'
  · exact hafter e' he'
  · rw [List.mem_singleton.mp he']
    exact he

private theorem largestPrimary_append (memorymap : List MemoryMapEntry) (e : MemoryMapEntry) :
    largestPrimary (memorymap ++ [e]) =
      if e.type = .usable ∧ ∀ l ∈ largestPrimary memorymap, e.numPages > l.numPages then some e
      else largestPrimary memorymap := by
  simp [largestPrimary, List.foldl_append]

/-- The search of `pageframe_init` finds the first largest usable entry, and fails only where
there is no usable entry at all. -/
theorem largestPrimary_spec (memorymap : List MemoryMapEntry) :
    (∀ largest, largestPrimary memorymap = some largest → FirstLargest memorymap largest) ∧
      (largestPrimary memorymap = none → ∀ e ∈ memorymap, e.type ≠ .usable) := by
  induction memorymap using List.reverseRecOn with
  | nil => simp [largestPrimary]
  | append_singleton memorymap e ih =>
      obtain ⟨hsome, hnone⟩ := ih
      rw [largestPrimary_append]
      cases hlargest : largestPrimary memorymap with
      | none =>
          have hno := hnone hlargest
          by_cases htype : e.type = .usable
          · simp only [htype, Option.mem_def, reduceCtorEq, false_implies, implies_true, and_self,
              if_true, Option.some.injEq, forall_eq', false_implies, and_true]
            exact ⟨memorymap, [], rfl, htype, fun e' he' ht => absurd ht (hno e' he'), by simp⟩
          · simp only [htype, false_and, if_false, reduceCtorEq, false_implies, implies_true,
              true_and, true_implies]
            intro e' he'
            rcases List.mem_append.mp he' with he' | he'
            · exact hno e' he'
            · rwa [List.mem_singleton.mp he']
      | some l =>
          have hl := hsome l hlargest
          by_cases hreplace : e.type = .usable ∧ e.numPages > l.numPages
          · simp only [hreplace, Option.mem_def, Option.some.injEq, forall_eq', and_self, if_true,
              reduceCtorEq, false_implies, and_true]
            exact ⟨memorymap, [], rfl, hreplace.1,
              fun e' he' ht => (hl.le he' ht).trans_lt hreplace.2, by simp⟩
          · simp only [hreplace, Option.mem_def, Option.some.injEq, forall_eq', if_false,
              reduceCtorEq, false_implies, and_true]
            exact hl.append fun ht => Nat.le_of_not_lt fun hlt => hreplace ⟨ht, hlt⟩

private theorem largestPrimary_exists {memorymap : List MemoryMapEntry}
    (h : ∃ e ∈ memorymap, e.type = .usable) : ∃ largest, largestPrimary memorymap = some largest := by
  obtain ⟨e, he, htype⟩ := h
  cases hlargest : largestPrimary memorymap with
  | none => exact absurd htype ((largestPrimary_spec memorymap).2 hlargest e he)
  | some largest => exact ⟨largest, rfl⟩

/-- What `vos.ld` promises about the kernel image. -/
structure LinkerSymbols.WellFormed (symbols : LinkerSymbols) : Prop where
  virtualBase : symbols.virtualBase = 0xffffffff80000000
  base_le_start : symbols.virtualBase ≤ symbols.kernelStart
  start_aligned : symbols.kernelStart % 4096 = 0
  start_le_end : symbols.kernelStart ≤ symbols.kernelEnd
  end_lt : symbols.kernelEnd < 2 ^ 64

/-- The frame holds a part of the kernel image. -/
def LinkerSymbols.KernelFrame (symbols : LinkerSymbols) (i : Nat) : Prop :=
  symbols.physicalAddress symbols.kernelStart ≤ i * 4096 ∧
    i * 4096 < symbols.physicalAddress symbols.kernelEnd

instance (symbols : LinkerSymbols) (i : Nat) : Decidable (symbols.KernelFrame i) :=
  inferInstanceAs (Decidable (_ ∧ _))

private theorem LinkerSymbols.WellFormed.mem_kernelFrames {symbols : LinkerSymbols}
    (h : symbols.WellFormed) (i : Nat) : i ∈ kernelFrames symbols ↔ symbols.KernelFrame i := by
  obtain ⟨hbase, hbaseStart, haligned, hle, hlt⟩ := h
  have hstart : symbols.physicalAddress symbols.kernelStart =
      symbols.kernelStart - symbols.virtualBase := by
    unfold LinkerSymbols.physicalAddress
    omega
  have hend : symbols.physicalAddress symbols.kernelEnd =
      symbols.kernelEnd - symbols.virtualBase := by
    unfold LinkerSymbols.physicalAddress
    omega
  have hsize : (symbols.kernelEnd + 2 ^ 64 - symbols.kernelStart) % 2 ^ 64 =
      symbols.kernelEnd - symbols.kernelStart := by omega
  rw [kernelFrames, LinkerSymbols.KernelFrame, hstart, hend, hsize, nearestPage_eq (by omega),
    mem_frameIndexes (by omega)]
  omega

private theorem mem_entryFrames {entry : MemoryMapEntry} (hsized : entry.Sized)
    (haligned : entry.physicalBase % 4096 = 0) (i : Nat) :
    i ∈ entryFrames entry ↔ entry.type = .usable ∧ entry.HasFrame i := by
  obtain ⟨hbase, hpages⟩ := hsized
  have hcount : entry.numPages * 4096 % 2 ^ 64 / 4096 = entry.numPages := by omega
  unfold entryFrames
  by_cases htype : entry.type = .usable
  · rw [if_pos htype, hcount, mem_frameIndexes (by omega), entry.hasFrame_iff haligned]
    simp [htype]
  · simp [htype]

private theorem Booted.inUse_eq_false {memory : Nat → BitVec 8} {symbols : LinkerSymbols}
    {memorymap : List MemoryMapEntry} {largest : MemoryMapEntry} {s : Pageframe}
    (h : Booted memory symbols memorymap largest s) (hsymbols : symbols.WellFormed)
    (hsized : ∀ e ∈ memorymap, e.Sized) (haligned : ∀ e ∈ memorymap, e.physicalBase % 4096 = 0)
    (hmem : largest ∈ memorymap) {i : Nat} (hi : i < 8 * s.pageframemap.size) :
    s.inUse i = false ↔
      (∃ e ∈ memorymap, e.type = .usable ∧ e.HasFrame i) ∧
      ¬ (largest.physicalBase / 4096 ≤ i ∧
        i < largest.physicalBase / 4096 + nearestPage s.pageframemap.size) ∧
      ¬ symbols.KernelFrame i ∧ 256 ≤ i := by
  have hsize := h.quiet.size
  have htotal := totalSize_lt memorymap
  have hle : i ≤ s.frames := h.quiet.frames_eq ▸ hi.le
  have hentries : i ∈ memorymap.flatMap entryFrames ↔
      ∃ e ∈ memorymap, e.type = .usable ∧ e.HasFrame i := by
    rw [List.mem_flatMap]
    apply exists_congr
    intro e
    apply and_congr_right
    intro he
    exact mem_entryFrames (hsized e he) (haligned e he) i
  -- The first pass reserves every frame of the bitmap, whatever the memory held before.
  have hwhole : i ∈ frameIndexes 0 (totalSize memorymap / 4096) := by
    rw [mem_frameIndexes (by omega)]
    have := h.size
    omega
  have hbitmap : i ∈ frameIndexes largest.physicalBase (nearestPage s.pageframemap.size) ↔
      largest.physicalBase / 4096 ≤ i ∧
        i < largest.physicalBase / 4096 + nearestPage s.pageframemap.size := by
    have hbase := (hsized largest hmem).1
    have hpages := nearestPage_lt (n := s.pageframemap.size) (by omega)
    rw [mem_frameIndexes (by omega)]
  have hlow : i ∈ frameIndexes 0 pageframeInitialReservePages ↔ i < 256 := by
    rw [mem_frameIndexes (by decide), pageframeInitialReservePages]
    omega
  rw [← Bool.not_eq_true, h.inUse i hle, hentries, hbitmap, hsymbols.mem_kernelFrames, hlow]
  simp only [hwhole, or_true, true_and, not_or, not_not, Nat.not_lt]

/-- After `pageframe_init` the bitmap has a bit for each page of the map's total, and a tracked frame
is free exactly when it lies in a usable region and is none of the bitmap's own frames, of the kernel
image's frames and of the first 256. -/
theorem pageframeInit_free_iff (memory : Nat → BitVec 8) {symbols : LinkerSymbols}
    (hsymbols : symbols.WellFormed) {entries : List Stivale2MemoryMapEntry}
    (husable : ∃ e ∈ stivale2GetMemorymap entries, e.type = .usable)
    (haligned : ∀ e ∈ stivale2GetMemorymap entries, e.physicalBase % 4096 = 0) :
    ∃ largest s, FirstLargest (stivale2GetMemorymap entries) largest ∧
      pageframeInit memory symbols (stivale2GetMemorymap entries) = some s ∧
      s.pageframemap.size = totalSize (stivale2GetMemorymap entries) / 4096 / 8 ∧
      ∀ i < 8 * s.pageframemap.size, s.inUse i = false ↔
        (∃ e ∈ stivale2GetMemorymap entries, e.type = .usable ∧ e.HasFrame i) ∧
        ¬ (largest.physicalBase / 4096 ≤ i ∧
          i < largest.physicalBase / 4096 + nearestPage s.pageframemap.size) ∧
        ¬ symbols.KernelFrame i ∧ 256 ≤ i := by
  obtain ⟨largest, hlargest⟩ := largestPrimary_exists husable
  obtain ⟨s, hs, hbooted⟩ := pageframeInit_spec memory symbols hlargest
  have hfirst := (largestPrimary_spec _).1 largest hlargest
  refine ⟨largest, s, hfirst, hs, hbooted.size, ?_⟩
  intro i hi
  exact hbooted.inUse_eq_false hsymbols (stivale2GetMemorymap_sized entries) haligned hfirst.mem hi

/-- Low memory that is reserved, two usable regions of which the second is larger, and a reserved
one behind them. -/
def fourRegions : List Stivale2MemoryMapEntry :=
  [⟨0, 0x100000, 2⟩, ⟨0x100000, 0x8000, 1⟩, ⟨0x108000, 0x10000, 1⟩, ⟨0x118000, 0x8000, 2⟩]

/-- The bitmap lies in the first frame of the larger region, and the kernel in four of the other. -/
theorem pageframeInit_free_iff_four_regions :
    ∃ s, pageframeInit (fun _ => 0) (smallSymbols 4) (stivale2GetMemorymap fourRegions) = some s ∧
      s.pageframemap.size = 36 ∧
      ∀ i < 288, s.inUse i = false ↔ 256 ≤ i ∧ i < 280 ∧ i ≠ 264 ∧ ¬ (258 ≤ i ∧ i < 262) := by
  have hmap : stivale2GetMemorymap fourRegions = [⟨0, 256, .unusable⟩, ⟨0x100000, 8, .usable⟩,
      ⟨0x108000, 16, .usable⟩, ⟨0x118000, 8, .unusable⟩] := rfl
  have hexpected : FirstLargest (stivale2GetMemorymap fourRegions) ⟨0x108000, 16, .usable⟩ := by
    rw [hmap]
    exact ⟨[⟨0, 256, .unusable⟩, ⟨0x100000, 8, .usable⟩], [⟨0x118000, 8, .unusable⟩], rfl, rfl,
      by decide, by decide⟩
  have hsymbols : (smallSymbols 4).WellFormed := ⟨rfl, by decide, rfl, by decide, by decide⟩
  have hexists : ∃ e ∈ stivale2GetMemorymap fourRegions, e.type = .usable := by
    rw [hmap]
    decide
  have haligned : ∀ e ∈ stivale2GetMemorymap fourRegions, e.physicalBase % 4096 = 0 := by
    rw [hmap]
    decide
  obtain ⟨largest, s, hfirst, hs, hsize, hfree⟩ :=
    pageframeInit_free_iff (fun _ => 0) hsymbols hexists haligned
  obtain rfl := hfirst.unique hexpected
  have hsize : s.pageframemap.size = 36 := by
    rw [hsize, hmap]
    rfl
  rw [hsize] at hfree
  refine ⟨s, hs, hsize, ?_⟩
  intro i hi
  have husable : (∃ e ∈ stivale2GetMemorymap fourRegions, e.type = .usable ∧ e.HasFrame i) ↔
      256 ≤ i ∧ i < 280 := by
    simp only [hmap, List.exists_mem_cons_iff, MemoryMapEntry.HasFrame, reduceCtorEq, false_and,
      true_and, false_or, List.not_mem_nil, exists_false, or_false]
    omega
  have hkernel : (smallSymbols 4).KernelFrame i ↔ 258 ≤ i ∧ i < 262 := by
    change 0x102000 ≤ i * 4096 ∧ i * 4096 < 0x106000 ↔ _
    omega
  rw [hfree i hi, husable, hkernel, show nearestPage 36 = 1 from rfl]
  dsimp only
  omega

/-! ### Frames beyond the bitmap -/

/-- Regions do not overlap and are listed by address. -/
def Sorted (memorymap : List MemoryMapEntry) : Prop :=
  memorymap.Pairwise fun e e' => e.physicalBase + e.numPages * 4096 ≤ e'.physicalBase

instance (memorymap : List MemoryMapEntry) : Decidable (Sorted memorymap) :=
  inferInstanceAs (Decidable (List.Pairwise _ _))

def pageCount (memorymap : List MemoryMapEntry) : Nat := (memorymap.map (·.numPages)).sum

/-- The index one past the last usable frame. -/
def usableEnd : List MemoryMapEntry → Nat
  | [] => 0
  | entry :: memorymap =>
      if entry.type = .usable ∧ 0 < entry.numPages then
        max (entry.physicalBase / 4096 + entry.numPages) (usableEnd memorymap)
      else usableEnd memorymap

/-- The pages of the regions below the end of usable memory. -/
def pagesBelow (memorymap : List MemoryMapEntry) : Nat :=
  pageCount (memorymap.filter fun e => e.physicalBase < usableEnd memorymap * 4096)

/-- The pages of the regions above the end of usable memory. -/
def pagesAbove (memorymap : List MemoryMapEntry) : Nat :=
  pageCount (memorymap.filter fun e => ¬ e.physicalBase < usableEnd memorymap * 4096)

/-- The pages below the end of usable memory that no region describes. -/
def gapPages (memorymap : List MemoryMapEntry) : Nat :=
  usableEnd memorymap - pagesBelow memorymap

theorem totalSize_eq (memorymap : List MemoryMapEntry) :
    totalSize memorymap = pageCount memorymap * 4096 % 2 ^ 64 := by
  induction memorymap using List.reverseRecOn with
  | nil => rfl
  | append_singleton memorymap e ih =>
      have hfold : totalSize (memorymap ++ [e]) =
          (totalSize memorymap + e.numPages * 4096) % 2 ^ 64 := by
        simp [totalSize, List.foldl_append]
      have hcount : pageCount (memorymap ++ [e]) = pageCount memorymap + e.numPages := by
        simp [pageCount]
      rw [hfold, ih, hcount]
      omega

private theorem pageCount_filter_add (memorymap : List MemoryMapEntry) (p : MemoryMapEntry → Bool) :
    pageCount (memorymap.filter p) + pageCount (memorymap.filter fun e => !p e) =
      pageCount memorymap := by
  induction memorymap with
  | nil => rfl
  | cons e memorymap ih =>
      simp only [pageCount, List.filter_cons] at ih ⊢
      cases p e <;> simp <;> omega

private theorem pagesBelow_add_pagesAbove (memorymap : List MemoryMapEntry) :
    pagesBelow memorymap + pagesAbove memorymap = pageCount memorymap := by
  rw [← pageCount_filter_add memorymap fun e => e.physicalBase < usableEnd memorymap * 4096]
  simp only [pagesBelow, pagesAbove, decide_not]

private theorem usableEnd_le_iff {memorymap : List MemoryMapEntry}
    (haligned : ∀ e ∈ memorymap, e.physicalBase % 4096 = 0) (bound : Nat) :
    (∀ e ∈ memorymap, e.type = .usable → ∀ i, e.HasFrame i → i < bound) ↔
      usableEnd memorymap ≤ bound := by
  induction memorymap with
  | nil => simp [usableEnd]
  | cons e memorymap ih =>
      simp only [List.forall_mem_cons] at haligned ⊢
      rw [ih haligned.2]
      have hframes : (∀ i, e.HasFrame i → i < bound) ↔
          (0 < e.numPages → e.physicalBase / 4096 + e.numPages ≤ bound) := by
        simp only [e.hasFrame_iff haligned.1]
        constructor
        · intro h hpos
          have := h (e.physicalBase / 4096 + e.numPages - 1)
          omega
        · intro h i hi
          omega
      by_cases htype : e.type = .usable
      · by_cases hpos : 0 < e.numPages
        · simp [usableEnd, htype, hpos, hframes]
        · simp [usableEnd, htype, hpos, hframes]
      · simp [usableEnd, htype]

private theorem usableEnd_mem (memorymap : List MemoryMapEntry) (h : 0 < usableEnd memorymap) :
    ∃ e ∈ memorymap, usableEnd memorymap = e.physicalBase / 4096 + e.numPages := by
  induction memorymap with
  | nil => simp [usableEnd] at h
  | cons e memorymap ih =>
      rw [usableEnd] at h ⊢
      by_cases hcond : e.type = .usable ∧ 0 < e.numPages
      · rw [if_pos hcond] at h ⊢
        rcases Nat.le_total (usableEnd memorymap) (e.physicalBase / 4096 + e.numPages) with hle | hle
        · exact ⟨e, List.mem_cons_self, Nat.max_eq_left hle⟩
        · rw [Nat.max_eq_right hle] at h ⊢
          obtain ⟨e', he', heq⟩ := ih h
          exact ⟨e', List.mem_cons_of_mem _ he', heq⟩
      · rw [if_neg hcond] at h ⊢
        obtain ⟨e', he', heq⟩ := ih h
        exact ⟨e', List.mem_cons_of_mem _ he', heq⟩

private theorem Sorted.apart {memorymap : List MemoryMapEntry} (h : Sorted memorymap)
    {e f : MemoryMapEntry} (he : e ∈ memorymap) (hf : f ∈ memorymap) (hne : e ≠ f) :
    e.physicalBase + e.numPages * 4096 ≤ f.physicalBase ∨
      f.physicalBase + f.numPages * 4096 ≤ e.physicalBase := by
  induction memorymap with
  | nil => simp at he
  | cons first memorymap ih =>
      obtain ⟨hfirst, hrest⟩ := List.pairwise_cons.mp h
      rcases List.mem_cons.mp he with heq | he'
      · rcases List.mem_cons.mp hf with hfq | hf'
        · exact absurd (heq.trans hfq.symm) hne
        · exact .inl (heq ▸ hfirst f hf')
      · rcases List.mem_cons.mp hf with hfq | hf'
        · exact .inr (hfq ▸ hfirst e he')
        · exact ih hrest he' hf'

theorem Sorted.pageCount_le {memorymap : List MemoryMapEntry} (h : Sorted memorymap)
    {low high : Nat} (hle : low ≤ high) (hlow : ∀ e ∈ memorymap, low ≤ e.physicalBase)
    (hhigh : ∀ e ∈ memorymap, e.physicalBase + e.numPages * 4096 ≤ high) :
    low + pageCount memorymap * 4096 ≤ high := by
  induction memorymap generalizing low with
  | nil => simpa [pageCount] using hle
  | cons e memorymap ih =>
      obtain ⟨hnext, hrest⟩ := List.pairwise_cons.mp h
      simp only [List.forall_mem_cons] at hlow hhigh
      have hcount : pageCount (e :: memorymap) = e.numPages + pageCount memorymap := by
        simp [pageCount]
      have hbound := ih hrest hhigh.1 hnext hhigh.2
      have hfirst := hlow.1
      rw [hcount]
      omega

/-- The regions below the end of usable memory fit below it: a region there cannot reach past
the usable region that ends there without overlapping it. -/
theorem Sorted.pagesBelow_le {memorymap : List MemoryMapEntry} (h : Sorted memorymap)
    (haligned : ∀ e ∈ memorymap, e.physicalBase % 4096 = 0) :
    pagesBelow memorymap ≤ usableEnd memorymap := by
  have hhigh : ∀ e ∈ memorymap.filter fun e => e.physicalBase < usableEnd memorymap * 4096,
      e.physicalBase + e.numPages * 4096 ≤ usableEnd memorymap * 4096 := by
    intro e he
    simp only [List.mem_filter, decide_eq_true_eq] at he
    obtain ⟨hmem, hbelow⟩ := he
    obtain ⟨f, hf, hend⟩ := usableEnd_mem memorymap (by omega)
    have hfend : usableEnd memorymap * 4096 = f.physicalBase + f.numPages * 4096 := by
      have := haligned f hf
      omega
    rw [hfend] at hbelow ⊢
    by_cases hef : e = f
    · rw [hef]
    · rcases h.apart hmem hf hef with hlt | hlt
      · omega
      · omega
  have hsorted : Sorted (memorymap.filter fun e => e.physicalBase < usableEnd memorymap * 4096) :=
    h.sublist List.filter_sublist
  have := hsorted.pageCount_le (Nat.zero_le _) (fun _ _ => Nat.zero_le _) hhigh
  unfold pagesBelow
  omega

/-- The bitmap has a bit for each usable frame exactly when the address gaps below the end of
usable memory, and what the two divisions and the 64-bit sum cut off, are made up for by
regions above it. -/
theorem usable_frames_tracked_iff (memory : Nat → BitVec 8) (symbols : LinkerSymbols)
    {memorymap : List MemoryMapEntry} (husable : ∃ e ∈ memorymap, e.type = .usable)
    (haligned : ∀ e ∈ memorymap, e.physicalBase % 4096 = 0) (hsorted : Sorted memorymap) :
    ∃ s, pageframeInit memory symbols memorymap = some s ∧
      ((∀ e ∈ memorymap, e.type = .usable → ∀ i, e.HasFrame i → i < 8 * s.pageframemap.size) ↔
        gapPages memorymap + pageCount memorymap % 8 +
          2 ^ 52 * (pageCount memorymap / 2 ^ 52) ≤ pagesAbove memorymap) := by
  obtain ⟨largest, hlargest⟩ := largestPrimary_exists husable
  obtain ⟨s, hs, hbooted⟩ := pageframeInit_spec memory symbols hlargest
  refine ⟨s, hs, ?_⟩
  have hsize : s.pageframemap.size = pageCount memorymap % 2 ^ 52 / 8 := by
    rw [hbooted.size, totalSize_eq]
    omega
  have hgap : gapPages memorymap + pagesBelow memorymap = usableEnd memorymap :=
    Nat.sub_add_cancel (hsorted.pagesBelow_le haligned)
  have hcount := pagesBelow_add_pagesAbove memorymap
  rw [usableEnd_le_iff haligned, hsize]
  omega

/-- The memory of an ordinary machine: 640 KiB, a hole up to the first megabyte, and 4 MiB. -/
def holedMap : List MemoryMapEntry := [⟨0, 160, .usable⟩, ⟨0x100000, 1024, .usable⟩]

/-- Eight usable frames behind a hole, with reserved memory above them. -/
def toppedMap : List MemoryMapEntry :=
  [⟨0, 256, .unusable⟩, ⟨0x108000, 8, .usable⟩, ⟨0x110000, 16, .unusable⟩]

/-- The hole of eight pages is made up for by the sixteen above the end of usable memory. -/
theorem usable_frames_tracked_iff_three_regions :
    ∃ s, pageframeInit (fun _ => 0) (smallSymbols 4) toppedMap = some s ∧ gapPages toppedMap = 8 ∧
      ∀ i, (MemoryMapEntry.mk 0x108000 8 .usable).HasFrame i → i < 8 * s.pageframemap.size := by
  have husable : ∃ e ∈ toppedMap, e.type = .usable := by decide
  obtain ⟨s, hs, htracked⟩ := usable_frames_tracked_iff (fun _ => 0) (smallSymbols 4) husable
    (by decide) (by decide)
  exact ⟨s, hs, rfl, htracked.mpr (by decide) ⟨0x108000, 8, .usable⟩ (by simp [toppedMap]) rfl⟩

/-- The hole is not counted, so that the last 96 usable frames have no bit. -/
theorem usable_frames_lost :
    ∃ s, pageframeInit (fun _ => 0) (smallSymbols 4) holedMap = some s ∧ Sorted holedMap ∧
      (∀ e ∈ holedMap, e.physicalBase % 4096 = 0) ∧
      ∃ e ∈ holedMap, e.type = .usable ∧ e.HasFrame 1184 ∧ ¬ 1184 < 8 * s.pageframemap.size := by
  obtain ⟨s, hs, hbooted⟩ := pageframeInit_spec (fun _ => 0) (smallSymbols 4)
    (show largestPrimary holedMap = some ⟨0x100000, 1024, .usable⟩ from rfl)
  have hsize : s.pageframemap.size = 148 := hbooted.size
  refine ⟨s, hs, by decide, by decide, ⟨0x100000, 1024, .usable⟩, by simp [holedMap], rfl,
    by decide, ?_⟩
  rw [hsize]
  decide

end VisualOS.Kernel
