import VisualOS.Memory.Pageframe

/-!
# Marking and releasing ranges of frames

What the four range operations do to the bitmap and to the search hint.  An index past the
end of the bitmap is skipped, except that the one right at the end is stored in the byte
behind the buffer; a released index always counts as changed, so it always pulls the hint.
-/

namespace VisualOS.Kernel

/-- `t` is `s` with the frames `indexes` marked in use, as far as the bitmap reaches. -/
structure Marked (indexes : List Nat) (s t : Pageframe) : Prop where
  size : t.pageframemap.size = s.pageframemap.size
  currentIndex : t.currentIndex = s.currentIndex
  mutex : t.mutex = s.mutex
  inUse : ∀ j, t.inUse j = (s.inUse j || (decide (j ∈ indexes) && decide (j ≤ s.frames)))

/-- `t` is `s` with the frames `indexes` free and the hint no higher than any of them. -/
structure Released (indexes : List Nat) (s t : Pageframe) : Prop where
  size : t.pageframemap.size = s.pageframemap.size
  currentIndex : t.currentIndex = indexes.foldl min s.currentIndex
  mutex : t.mutex = s.mutex
  inUse : ∀ j, t.inUse j = (s.inUse j && !decide (j ∈ indexes))

theorem frames_of_size {s t : Pageframe} (h : t.pageframemap.size = s.pageframemap.size) :
    t.frames = s.frames := by
  simp only [Pageframe.frames, bitmapAdjustedSize, h]

theorem frames_eq_of_size {s : Pageframe} (h : s.pageframemap.size < 2 ^ 49) :
    s.frames = 8 * s.pageframemap.size := by
  rw [Pageframe.frames, bitmapAdjustedSize, bitmapScale, Nat.mod_eq_of_lt (by omega)]
  omega

theorem Marked.frames {indexes : List Nat} {s t : Pageframe} (h : Marked indexes s t) :
    t.frames = s.frames := frames_of_size h.size

theorem Released.frames {indexes : List Nat} {s t : Pageframe} (h : Released indexes s t) :
    t.frames = s.frames := frames_of_size h.size

theorem inUse_out_of_range {s : Pageframe} {index : Nat} (h : s.frames < index) :
    s.inUse index = false := bitmapGet_out_of_range h

private theorem grow_fields (s : Pageframe) (counter : MemoryCounter) :
    ∃ used reserved, s.grow counter =
      { s with memoryUsedSize := used, memoryReservedSize := reserved } := by
  cases counter
  · exact ⟨_, s.memoryReservedSize, rfl⟩
  · exact ⟨s.memoryUsedSize, _, rfl⟩

theorem shrink_fields (s : Pageframe) (counter : MemoryCounter) :
    ∃ used reserved, s.shrink counter =
      { s with memoryUsedSize := used, memoryReservedSize := reserved } := by
  cases counter
  · by_cases h : s.memoryUsedSize ≥ 4096
    · exact ⟨_, s.memoryReservedSize, by simp only [Pageframe.shrink, h, if_true]; rfl⟩
    · exact ⟨s.memoryUsedSize, s.memoryReservedSize, by simp only [Pageframe.shrink, h, if_false]⟩
  · by_cases h : s.memoryReservedSize ≥ 4096
    · exact ⟨s.memoryUsedSize, _, by simp only [Pageframe.shrink, h, if_true]; rfl⟩
    · exact ⟨s.memoryUsedSize, s.memoryReservedSize, by simp only [Pageframe.shrink, h, if_false]⟩

theorem pageframeManipulate_spec (index : Nat) (state : Bool) (s : Pageframe) :
    ∃ bitmap, (pageframeManipulate index state s).2 = { s with pageframemap := bitmap } ∧
      bitmap.size = s.pageframemap.size ∧
      ∀ j, bitmapGet bitmap j = if j = index ∧ index ≤ s.frames then state else s.inUse j := by
  unfold pageframeManipulate
  by_cases h : bitmapGet s.pageframemap index = state
  · refine ⟨s.pageframemap, by simp [h], rfl, ?_⟩
    intro j
    by_cases hj : j = index ∧ index ≤ s.frames
    · rw [if_pos hj, hj.1, h]
    · rw [if_neg hj, Pageframe.inUse]
  · refine ⟨(bitmapSet s.pageframemap index state).2, by simp [h], bitmapSet_size _ _ _, ?_⟩
    intro j
    rw [bitmapGet_bitmapSet]
    rfl

theorem pageframeManipulate_false_fst (index : Nat) (s : Pageframe) :
    (pageframeManipulate index false s).1 = true := by
  unfold pageframeManipulate
  by_cases h : bitmapGet s.pageframemap index = false
  · simp [h]
  · have hle : index ≤ bitmapAdjustedSize s.pageframemap := by
      by_contra hle
      exact h (bitmapGet_out_of_range (Nat.not_le.mp hle))
    rw [if_neg h]
    simp only [bitmapSet_fst, hle, decide_true]

theorem markFrame_marked (counter : MemoryCounter) (s : Pageframe) (index : Nat) :
    Marked [index] s (markFrame counter s index) := by
  obtain ⟨bitmap, heq, hsize, hget⟩ := pageframeManipulate_spec index true s
  have hinUse : ∀ j, bitmapGet bitmap j =
      (s.inUse j || (decide (j ∈ [index]) && decide (j ≤ s.frames))) := by
    intro j
    rw [hget]
    by_cases hj : j = index
    · subst j
      by_cases hle : index ≤ s.frames
      · simp [hle]
      · simp [hle]
    · simp [hj]
  unfold markFrame
  rw [show pageframeManipulate index true s =
    ((pageframeManipulate index true s).1, { s with pageframemap := bitmap }) by rw [← heq]]
  cases (pageframeManipulate index true s).1
  · exact ⟨hsize, rfl, rfl, hinUse⟩
  · obtain ⟨used, reserved, hgrow⟩ := grow_fields { s with pageframemap := bitmap } counter
    simp only [if_true, hgrow]
    exact ⟨hsize, rfl, rfl, hinUse⟩

private theorem releaseFrame_released (counter : MemoryCounter) (s : Pageframe) (index : Nat) :
    Released [index] s (releaseFrame counter s index) := by
  obtain ⟨bitmap, heq, hsize, hget⟩ := pageframeManipulate_spec index false s
  have hinUse : ∀ j, bitmapGet bitmap j = (s.inUse j && !decide (j ∈ [index])) := by
    intro j
    rw [hget]
    by_cases hj : j = index
    · subst j
      by_cases hle : index ≤ s.frames
      · simp [hle]
      · simp [hle, inUse_out_of_range (Nat.not_le.mp hle)]
    · simp [hj]
  unfold releaseFrame
  rw [show pageframeManipulate index false s = (true, { s with pageframemap := bitmap }) by
    rw [← heq, ← pageframeManipulate_false_fst index s]]
  obtain ⟨used, reserved, hshrink⟩ := shrink_fields { s with pageframemap := bitmap } counter
  simp only [if_true, hshrink]
  by_cases hlt : s.currentIndex > index
  · rw [if_pos hlt]
    exact ⟨hsize, (Nat.min_eq_right hlt.le).symm, rfl, hinUse⟩
  · rw [if_neg hlt]
    exact ⟨hsize, (Nat.min_eq_left (Nat.not_lt.mp hlt)).symm, rfl, hinUse⟩

private theorem markFrame_foldl (counter : MemoryCounter) (indexes : List Nat) (s : Pageframe) :
    Marked indexes s (indexes.foldl (markFrame counter) s) := by
  induction indexes generalizing s with
  | nil => exact ⟨rfl, rfl, rfl, by simp⟩
  | cons i indexes ih =>
      have hfirst := markFrame_marked counter s i
      have hrest := ih (markFrame counter s i)
      refine ⟨hrest.size.trans hfirst.size, hrest.currentIndex.trans hfirst.currentIndex,
        hrest.mutex.trans hfirst.mutex, ?_⟩
      intro j
      rw [List.foldl_cons, hrest.inUse, hfirst.inUse, hfirst.frames]
      by_cases hj : j = i
      · subst j
        by_cases hle : i ≤ s.frames <;> simp [hle]
      · simp [hj]

private theorem releaseFrame_foldl (counter : MemoryCounter) (indexes : List Nat)
    (s : Pageframe) : Released indexes s (indexes.foldl (releaseFrame counter) s) := by
  induction indexes generalizing s with
  | nil => exact ⟨rfl, rfl, rfl, by simp⟩
  | cons i indexes ih =>
      have hfirst := releaseFrame_released counter s i
      have hrest := ih (releaseFrame counter s i)
      refine ⟨hrest.size.trans hfirst.size, ?_, hrest.mutex.trans hfirst.mutex, ?_⟩
      · rw [List.foldl_cons, hrest.currentIndex, hfirst.currentIndex]
        rfl
      · intro j
        rw [List.foldl_cons, hrest.inUse, hfirst.inUse]
        by_cases hj : j = i
        · simp [hj]
        · simp [hj]

/-- An operation that takes a free mutex bit, works on the rest of the state and gives the
bit back leaves the mutex word as it found it. -/
theorem pageframeUnlock_mutex {s t : Pageframe} {bit : PageframeMutexBit}
    (hfree : s.mutex.getLsbD bit.toNat = false)
    (hmutex : t.mutex = s.mutex ||| BitVec.twoPow 64 bit.toNat) :
    (pageframeUnlock bit t).mutex = s.mutex := by
  simp only [pageframeUnlock, hmutex]
  exact atomicUnlock_taken hfree

theorem pageframeSpinlock_free {s : Pageframe} {bit : PageframeMutexBit}
    (hfree : s.mutex.getLsbD bit.toNat = false) :
    pageframeSpinlock bit s =
      some { s with mutex := s.mutex ||| BitVec.twoPow 64 bit.toNat } := by
  simp only [pageframeSpinlock, atomicSpinlock_free hfree, Option.bind_eq_bind,
    Option.bind_some, Option.pure_def]

theorem pageframeSpinlock_held {s : Pageframe} {bit : PageframeMutexBit}
    (hheld : s.mutex.getLsbD bit.toNat = true) : pageframeSpinlock bit s = none := by
  have hspin : atomicSpinlock s.mutex bit.toNat = none := by
    simp only [atomicSpinlock, hheld, if_true]
  simp only [pageframeSpinlock, hspin, Option.bind_eq_bind, Option.bind_none]

theorem pageframeSpinlock_some {s t : Pageframe} {bit : PageframeMutexBit}
    (h : pageframeSpinlock bit s = some t) :
    s.mutex.getLsbD bit.toNat = false ∧
      t = { s with mutex := s.mutex ||| BitVec.twoPow 64 bit.toNat } := by
  cases hbit : s.mutex.getLsbD bit.toNat with
  | true =>
      rw [pageframeSpinlock_held hbit] at h
      cases h
  | false =>
      rw [pageframeSpinlock_free hbit, Option.some.injEq] at h
      exact ⟨rfl, h.symm⟩

theorem markFrames_spec (counter : MemoryCounter) (physicalAddress pages : Nat) {s : Pageframe}
    (hfree : s.mutex.getLsbD PageframeMutexBit.lock.toNat = false) :
    ∃ t, markFrames counter physicalAddress pages s = some t ∧
      Marked (frameIndexes physicalAddress pages) s t := by
  let locked : Pageframe :=
    { s with mutex := s.mutex ||| BitVec.twoPow 64 PageframeMutexBit.lock.toNat }
  have h := markFrame_foldl counter (frameIndexes physicalAddress pages) locked
  refine ⟨pageframeUnlock .lock _, ?_, h.size, h.currentIndex,
    pageframeUnlock_mutex hfree h.mutex, h.inUse⟩
  rw [markFrames, pageframeSpinlock_free hfree]
  rfl

theorem releaseFrames_spec (counter : MemoryCounter) (physicalAddress pages : Nat)
    {s : Pageframe} (hfree : s.mutex.getLsbD PageframeMutexBit.free.toNat = false) :
    ∃ t, releaseFrames counter physicalAddress pages s = some t ∧
      Released (frameIndexes physicalAddress pages) s t := by
  let locked : Pageframe :=
    { s with mutex := s.mutex ||| BitVec.twoPow 64 PageframeMutexBit.free.toNat }
  have h := releaseFrame_foldl counter (frameIndexes physicalAddress pages) locked
  refine ⟨pageframeUnlock .free _, ?_, h.size, h.currentIndex,
    pageframeUnlock_mutex hfree h.mutex, h.inUse⟩
  rw [releaseFrames, pageframeSpinlock_free hfree]
  rfl

theorem markFrames_marked {counter : MemoryCounter} {physicalAddress pages : Nat}
    {s t : Pageframe} (h : markFrames counter physicalAddress pages s = some t) :
    Marked (frameIndexes physicalAddress pages) s t := by
  cases hbit : s.mutex.getLsbD PageframeMutexBit.lock.toNat
  · obtain ⟨t', ht', hmarked⟩ := markFrames_spec counter physicalAddress pages hbit
    rw [h, Option.some.injEq] at ht'
    exact ht' ▸ hmarked
  · rw [markFrames, pageframeSpinlock_held hbit] at h
    simp at h

theorem releaseFrames_released {counter : MemoryCounter} {physicalAddress pages : Nat}
    {s t : Pageframe} (h : releaseFrames counter physicalAddress pages s = some t) :
    Released (frameIndexes physicalAddress pages) s t := by
  cases hbit : s.mutex.getLsbD PageframeMutexBit.free.toNat
  · obtain ⟨t', ht', hreleased⟩ := releaseFrames_spec counter physicalAddress pages hbit
    rw [h, Option.some.injEq] at ht'
    exact ht' ▸ hreleased
  · rw [releaseFrames, pageframeSpinlock_held hbit] at h
    simp at h

/-! The same bit by bit, with those that `bitmap_get` does not show. -/

/-- Bit `j` of the bitmap's memory. -/
def Pageframe.bit (s : Pageframe) (j : Nat) : Bool := bufferBit s.pageframemap.buffer j

theorem bit_eq_inUse {s : Pageframe} {j : Nat} (h : j ≤ s.frames) : s.bit j = s.inUse j := by
  rw [Pageframe.inUse, bitmapGet_eq_bufferBit, Pageframe.bit]
  exact (Bool.and_eq_right_iff_imp.mpr fun _ => decide_eq_true h).symm

private theorem pageframeManipulate_bit (index : Nat) (state : Bool) (s : Pageframe) (j : Nat) :
    (pageframeManipulate index state s).2.bit j =
      if j = index ∧ index ≤ s.frames then state else s.bit j := by
  unfold pageframeManipulate
  by_cases h : bitmapGet s.pageframemap index = state
  · rw [if_pos h]
    by_cases hj : j = index ∧ index ≤ s.frames
    · rw [if_pos hj, hj.1, ← h]
      exact bit_eq_inUse hj.2
    · rw [if_neg hj]
  · rw [if_neg h]
    exact bufferBit_bitmapSet s.pageframemap index j state

private theorem markFrame_bit (counter : MemoryCounter) (s : Pageframe) (index j : Nat) :
    (markFrame counter s index).bit j = (s.bit j || (decide (j = index) && decide (j ≤ s.frames))) := by
  have hmap : (markFrame counter s index).pageframemap =
      (pageframeManipulate index true s).2.pageframemap := by
    unfold markFrame
    obtain ⟨used, reserved, hgrow⟩ := grow_fields (pageframeManipulate index true s).2 counter
    dsimp only
    rw [hgrow]
    split <;> rfl
  rw [Pageframe.bit, hmap, ← Pageframe.bit, pageframeManipulate_bit]
  by_cases hj : j = index
  · subst j
    by_cases hle : index ≤ s.frames
    · simp [hle]
    · simp [hle]
  · simp [hj]

private theorem releaseFrame_bit (counter : MemoryCounter) (s : Pageframe) (index j : Nat) :
    (releaseFrame counter s index).bit j =
      (s.bit j && !(decide (j = index) && decide (j ≤ s.frames))) := by
  have hmap : (releaseFrame counter s index).pageframemap =
      (pageframeManipulate index false s).2.pageframemap := by
    unfold releaseFrame
    obtain ⟨used, reserved, hshrink⟩ := shrink_fields (pageframeManipulate index false s).2 counter
    dsimp only
    rw [hshrink]
    split
    · split <;> rfl
    · rfl
  rw [Pageframe.bit, hmap, ← Pageframe.bit, pageframeManipulate_bit]
  by_cases hj : j = index
  · subst j
    by_cases hle : index ≤ s.frames
    · simp [hle]
    · simp [hle]
  · simp [hj]

private theorem markFrame_foldl_bit (counter : MemoryCounter) (indexes : List Nat) (s : Pageframe)
    (j : Nat) : (indexes.foldl (markFrame counter) s).bit j =
      (s.bit j || (decide (j ∈ indexes) && decide (j ≤ s.frames))) := by
  induction indexes generalizing s with
  | nil => simp
  | cons i indexes ih =>
      rw [List.foldl_cons, ih, markFrame_bit, (markFrame_marked counter s i).frames]
      by_cases hj : j = i
      · simpa [hj] using fun _ h => Or.inr h
      · simp [hj]

private theorem releaseFrame_foldl_bit (counter : MemoryCounter) (indexes : List Nat)
    (s : Pageframe) (j : Nat) : (indexes.foldl (releaseFrame counter) s).bit j =
      (s.bit j && !(decide (j ∈ indexes) && decide (j ≤ s.frames))) := by
  induction indexes generalizing s with
  | nil => simp
  | cons i indexes ih =>
      rw [List.foldl_cons, ih, releaseFrame_bit, (releaseFrame_released counter s i).frames]
      by_cases hj : j = i
      · simpa [hj] using fun _ h => Or.inr h
      · simp [hj]

theorem markFrames_bit {counter : MemoryCounter} {physicalAddress pages : Nat} {s t : Pageframe}
    (h : markFrames counter physicalAddress pages s = some t) (j : Nat) :
    t.bit j = (s.bit j ||
      (decide (j ∈ frameIndexes physicalAddress pages) && decide (j ≤ s.frames))) := by
  simp only [markFrames, Option.bind_eq_bind, Option.bind_eq_some_iff, Option.pure_def,
    Option.some.injEq] at h
  obtain ⟨u, hu, rfl⟩ := h
  obtain ⟨-, rfl⟩ := pageframeSpinlock_some hu
  exact markFrame_foldl_bit counter _ _ j

theorem releaseFrames_bit {counter : MemoryCounter} {physicalAddress pages : Nat}
    {s t : Pageframe} (h : releaseFrames counter physicalAddress pages s = some t) (j : Nat) :
    t.bit j = (s.bit j &&
      !(decide (j ∈ frameIndexes physicalAddress pages) && decide (j ≤ s.frames))) := by
  simp only [releaseFrames, Option.bind_eq_bind, Option.bind_eq_some_iff, Option.pure_def,
    Option.some.injEq] at h
  obtain ⟨u, hu, rfl⟩ := h
  obtain ⟨-, rfl⟩ := pageframeSpinlock_some hu
  exact releaseFrame_foldl_bit counter _ _ j

theorem mem_frameIndexes {physicalAddress pages j : Nat}
    (h : physicalAddress / 4096 + pages < 2 ^ 64) :
    j ∈ frameIndexes physicalAddress pages ↔
      physicalAddress / 4096 ≤ j ∧ j < physicalAddress / 4096 + pages := by
  simp only [frameIndexes, List.mem_range'_1, Nat.mod_eq_of_lt h]
  omega

private theorem foldl_min_le (indexes : List Nat) (hint : Nat) :
    indexes.foldl min hint ≤ hint ∧ ∀ i ∈ indexes, indexes.foldl min hint ≤ i := by
  induction indexes generalizing hint with
  | nil => simp
  | cons i indexes ih =>
      obtain ⟨hle, hall⟩ := ih (min hint i)
      refine ⟨hle.trans (Nat.min_le_left _ _), ?_⟩
      intro k hk
      rcases List.mem_cons.mp hk with rfl | hk
      · exact hle.trans (Nat.min_le_right _ _)
      · exact hall k hk

theorem Released.hint_le {indexes : List Nat} {s t : Pageframe} (h : Released indexes s t) :
    t.currentIndex ≤ s.currentIndex :=
  h.currentIndex ▸ (foldl_min_le indexes s.currentIndex).1

theorem Released.hint_le_mem {indexes : List Nat} {s t : Pageframe} (h : Released indexes s t)
    {i : Nat} (hi : i ∈ indexes) : t.currentIndex ≤ i :=
  h.currentIndex ▸ (foldl_min_le indexes s.currentIndex).2 i hi

end VisualOS.Kernel
