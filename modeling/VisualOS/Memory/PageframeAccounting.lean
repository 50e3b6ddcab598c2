import Mathlib.Data.Finset.Card
import VisualOS.Memory.BootMap
import VisualOS.Memory.PageframeContainment

/-!
# Memory accounting

The two size counters against the bits of the bitmap.  A range operation counts frames it
did not flip: marking counts every frame up to the bit behind the bitmap, releasing counts
every frame it visits.  The counters agree with the bitmap as long as no call visits a frame
that is already in the state asked for.
-/

namespace VisualOS.Kernel

open Framework

namespace Pageframe

def counter (s : Pageframe) : MemoryCounter → Nat
  | .used => s.memoryUsedSize
  | .reserved => s.memoryReservedSize

/-- The frames whose bit is set. -/
def marked (s : Pageframe) : Finset Nat :=
  (Finset.range (8 * s.pageframemap.size)).filter fun i => s.inUse i = true

@[simp] theorem mem_marked {s : Pageframe} {i : Nat} :
    i ∈ s.marked ↔ i < 8 * s.pageframemap.size ∧ s.inUse i = true := by
  simp [marked]

private theorem card_marked_le (s : Pageframe) : s.marked.card ≤ 8 * s.pageframemap.size := by
  have h := Finset.card_filter_le (Finset.range (8 * s.pageframemap.size))
    fun i => s.inUse i = true
  rwa [Finset.card_range] at h

end Pageframe

def memoryGetUsedSize (s : Pageframe) : Nat := s.memoryUsedSize

def memoryGetReservedSize (s : Pageframe) : Nat := s.memoryReservedSize

def memoryGetFree (s : Pageframe) : Nat :=
  ((s.memoryTotalSize + 2 ^ 64 - s.memoryUsedSize) % 2 ^ 64 + 2 ^ 64 - s.memoryReservedSize) %
    2 ^ 64

/-- The bits that differ between two states. -/
def flips (s t : Pageframe) : Nat :=
  ((Finset.range (8 * s.pageframemap.size)).filter fun i => s.inUse i ≠ t.inUse i).card

/-- `t` is `s` with more bits set, counted in one counter; nothing else is counted. -/
structure Grows (counter : MemoryCounter) (s t : Pageframe) : Prop where
  size : t.pageframemap.size = s.pageframemap.size
  total : t.memoryTotalSize = s.memoryTotalSize
  marked : s.marked ⊆ t.marked
  counted : t.counter counter = s.counter counter + 4096 * flips s t
  other : ∀ c, c ≠ counter → t.counter c = s.counter c

/-- The counters agree with the bitmap, which is no larger than the memory. -/
structure Balanced (s : Pageframe) : Prop where
  size : s.pageframemap.size < 2 ^ 49
  total : 4096 * (8 * s.pageframemap.size) ≤ s.memoryTotalSize
  total_lt : s.memoryTotalSize < 2 ^ 64
  sum : memoryGetUsedSize s + memoryGetReservedSize s = 4096 * s.marked.card

private theorem card_marked_of_subset {s t : Pageframe}
    (hsize : t.pageframemap.size = s.pageframemap.size) (hsub : s.marked ⊆ t.marked) :
    t.marked.card = s.marked.card + flips s t := by
  have hflips : flips s t = (t.marked \ s.marked).card := by
    unfold flips
    congr 1
    ext i
    have hsub := @hsub i
    simp only [Pageframe.mem_marked, hsize, Finset.mem_filter, Finset.mem_range,
      Finset.mem_sdiff] at hsub ⊢
    by_cases hi : i < 8 * s.pageframemap.size
    · cases hs : s.inUse i <;> cases ht : t.inUse i <;> simp_all
    · simp [hi]
  rw [hflips, Finset.card_sdiff_of_subset hsub]
  have := Finset.card_le_card hsub
  omega

namespace Grows

variable {counter : MemoryCounter} {s t : Pageframe}

private theorem card_marked (h : Grows counter s t) : t.marked.card = s.marked.card + flips s t :=
  card_marked_of_subset h.size h.marked

private theorem refl (counter : MemoryCounter) (s : Pageframe) : Grows counter s s :=
  ⟨rfl, rfl, fun _ hi => hi, by simp [flips], fun _ _ => rfl⟩

private theorem from_uncounted {hint : Nat} {mutex : BitVec 64}
    (h : Grows counter { s with currentIndex := hint, mutex := mutex } t) : Grows counter s t :=
  ⟨h.size, h.total, h.marked, h.counted, h.other⟩

private theorem sum_counters (h : Grows counter s t) :
    memoryGetUsedSize t + memoryGetReservedSize t =
      memoryGetUsedSize s + memoryGetReservedSize s + 4096 * flips s t := by
  have hcounted := h.counted
  cases counter with
  | used =>
      have hother : t.memoryReservedSize = s.memoryReservedSize := h.other .reserved (by decide)
      simp only [Pageframe.counter, memoryGetUsedSize, memoryGetReservedSize] at hcounted ⊢
      omega
  | reserved =>
      have hother : t.memoryUsedSize = s.memoryUsedSize := h.other .used (by decide)
      simp only [Pageframe.counter, memoryGetUsedSize, memoryGetReservedSize] at hcounted ⊢
      omega

end Grows

namespace Balanced

variable {counter : MemoryCounter} {s t : Pageframe}

private theorem uncounted (h : Balanced s) (hint : Nat) (mutex : BitVec 64) :
    Balanced { s with currentIndex := hint, mutex := mutex } :=
  ⟨h.size, h.total, h.total_lt, h.sum⟩

private theorem grows (h : Balanced s) (hg : Grows counter s t) : Balanced t := by
  refine ⟨hg.size ▸ h.size, ?_, hg.total ▸ h.total_lt, ?_⟩
  · rw [hg.size, hg.total]
    exact h.total
  · rw [hg.sum_counters, hg.card_marked, h.sum]
    omega

private theorem shrinks (h : Balanced s) (hg : Grows counter t s) : Balanced t := by
  refine ⟨hg.size ▸ h.size, ?_, hg.total ▸ h.total_lt, ?_⟩
  · rw [← hg.size, ← hg.total]
    exact h.total
  · have hsum := hg.sum_counters
    have hcard := hg.card_marked
    rw [h.sum, hcard] at hsum
    omega

private theorem sum_le_total (h : Balanced s) :
    memoryGetUsedSize s + memoryGetReservedSize s ≤ s.memoryTotalSize := by
  have hcard := s.card_marked_le
  have htotal := h.total
  rw [h.sum]
  omega

private theorem memoryGetFree_eq (h : Balanced s) :
    memoryGetFree s + memoryGetUsedSize s + memoryGetReservedSize s = s.memoryTotalSize := by
  have hle := h.sum_le_total
  have hlt := h.total_lt
  simp only [memoryGetFree, memoryGetUsedSize, memoryGetReservedSize] at hle ⊢
  omega

private theorem counter_le (h : Balanced s) (counter : MemoryCounter) :
    s.counter counter ≤ 4096 * s.marked.card := by
  have hsum := h.sum
  simp only [memoryGetUsedSize, memoryGetReservedSize] at hsum
  cases counter <;> simp only [Pageframe.counter] <;> omega

end Balanced

/-! ### The counters of the range operations -/

private theorem markFrame_counter (counter : MemoryCounter) (s : Pageframe) (index : Nat) :
    (markFrame counter s index).memoryTotalSize = s.memoryTotalSize ∧
      (markFrame counter s index).counter counter =
        (if index ≤ s.frames then (s.counter counter + 4096) % 2 ^ 64 else s.counter counter) ∧
      ∀ c, c ≠ counter → (markFrame counter s index).counter c = s.counter c := by
  obtain ⟨bitmap, heq, -, -⟩ := pageframeManipulate_spec index true s
  have hok : (pageframeManipulate index true s).1 = decide (index ≤ s.frames) := by
    unfold pageframeManipulate
    by_cases h : bitmapGet s.pageframemap index = true
    · have hle : index ≤ s.frames := by
        by_contra hle
        rw [bitmapGet_out_of_range (Nat.not_le.mp hle)] at h
        exact absurd h (by decide)
      simp [h, hle]
    · rw [if_neg h]
      exact bitmapSet_fst _ _ _
  unfold markFrame
  rw [show pageframeManipulate index true s =
    (decide (index ≤ s.frames), { s with pageframemap := bitmap }) by rw [← heq, ← hok]]
  by_cases hle : index ≤ s.frames
  · cases counter <;> simp [hle, Pageframe.grow, Pageframe.counter] <;> intro c hc <;> cases c <;>
      simp_all
  · cases counter <;> simp [hle, Pageframe.counter]

/-- Marking counts the visited frames up to the bit behind the bitmap, flipped or not. -/
private theorem markFrame_foldl_counter (counter : MemoryCounter) (indexes : List Nat)
    {s : Pageframe} (hlt : s.counter counter < 2 ^ 64) :
    (indexes.foldl (markFrame counter) s).memoryTotalSize = s.memoryTotalSize ∧
      (indexes.foldl (markFrame counter) s).counter counter =
        (s.counter counter + 4096 * indexes.countP (· ≤ s.frames)) % 2 ^ 64 ∧
      ∀ c, c ≠ counter → (indexes.foldl (markFrame counter) s).counter c = s.counter c := by
  induction indexes generalizing s with
  | nil => exact ⟨rfl, (Nat.mod_eq_of_lt hlt).symm, fun _ _ => rfl⟩
  | cons i indexes ih =>
      obtain ⟨htotal, hcounter, hother⟩ := markFrame_counter counter s i
      have hframes := (markFrame_marked counter s i).frames
      have hlt' : (markFrame counter s i).counter counter < 2 ^ 64 := by
        rw [hcounter]
        split <;> omega
      obtain ⟨htotal', hcounter', hother'⟩ := ih hlt'
      refine ⟨htotal'.trans htotal, ?_, fun c hc => (hother' c hc).trans (hother c hc)⟩
      rw [List.foldl_cons, hcounter', hcounter, hframes, List.countP_cons]
      by_cases hle : i ≤ s.frames
      · simp only [hle, if_true, decide_true]
        omega
      · simp only [hle, if_false, decide_false, Bool.false_eq_true]
        omega

private theorem shrink_counter (s : Pageframe) (counter : MemoryCounter) :
    (s.shrink counter).memoryTotalSize = s.memoryTotalSize ∧
      (4096 ≤ s.counter counter → (s.shrink counter).counter counter + 4096 = s.counter counter) ∧
      ∀ c, c ≠ counter → (s.shrink counter).counter c = s.counter c := by
  cases counter with
  | used =>
      by_cases h : 4096 ≤ s.memoryUsedSize
      · refine ⟨by simp [Pageframe.shrink, h], fun _ => ?_, ?_⟩
        · simp [Pageframe.shrink, Pageframe.counter, h]
        · intro c hc
          cases c
          · exact absurd rfl hc
          · simp [Pageframe.shrink, Pageframe.counter, h]
      · simp [Pageframe.shrink, Pageframe.counter, h]
  | reserved =>
      by_cases h : 4096 ≤ s.memoryReservedSize
      · refine ⟨by simp [Pageframe.shrink, h], fun _ => ?_, ?_⟩
        · simp [Pageframe.shrink, Pageframe.counter, h]
        · intro c hc
          cases c
          · simp [Pageframe.shrink, Pageframe.counter, h]
          · exact absurd rfl hc
      · simp [Pageframe.shrink, Pageframe.counter, h]

private theorem releaseFrame_counter (counter : MemoryCounter) (s : Pageframe) (index : Nat) :
    (releaseFrame counter s index).memoryTotalSize = s.memoryTotalSize ∧
      (4096 ≤ s.counter counter →
        (releaseFrame counter s index).counter counter + 4096 = s.counter counter) ∧
      ∀ c, c ≠ counter → (releaseFrame counter s index).counter c = s.counter c := by
  obtain ⟨bitmap, heq, -, -⟩ := pageframeManipulate_spec index false s
  unfold releaseFrame
  rw [show pageframeManipulate index false s = (true, { s with pageframemap := bitmap }) by
    rw [← heq, ← pageframeManipulate_false_fst index s]]
  obtain ⟨htotal, hcounter, hother⟩ := shrink_counter { s with pageframemap := bitmap } counter
  simp only [if_true]
  split
  · exact ⟨htotal, hcounter, hother⟩
  · exact ⟨htotal, hcounter, hother⟩

private theorem releaseFrame_foldl_counter (counter : MemoryCounter) (indexes : List Nat)
    {s : Pageframe} (hle : 4096 * indexes.length ≤ s.counter counter) :
    (indexes.foldl (releaseFrame counter) s).memoryTotalSize = s.memoryTotalSize ∧
      (indexes.foldl (releaseFrame counter) s).counter counter + 4096 * indexes.length =
        s.counter counter ∧
      ∀ c, c ≠ counter → (indexes.foldl (releaseFrame counter) s).counter c = s.counter c := by
  induction indexes generalizing s with
  | nil => simp
  | cons i indexes ih =>
      obtain ⟨htotal, hcounter, hother⟩ := releaseFrame_counter counter s i
      have hlength : 4096 * (i :: indexes).length = 4096 * indexes.length + 4096 := by
        rw [List.length_cons, Nat.mul_add]
      rw [hlength] at hle ⊢
      have hcounter := hcounter (by omega)
      obtain ⟨htotal', hcounter', hother'⟩ := ih (s := releaseFrame counter s i) (by omega)
      refine ⟨htotal'.trans htotal, ?_, fun c hc => (hother' c hc).trans (hother c hc)⟩
      rw [List.foldl_cons, ← Nat.add_assoc, hcounter', hcounter]

private theorem pageframeSpinlock_fields {bit : PageframeMutexBit} {s u : Pageframe}
    (h : pageframeSpinlock bit s = some u) : ∃ mutex, u = { s with mutex } := by
  simp only [pageframeSpinlock, Option.bind_eq_bind, Option.bind_eq_some_iff, Option.pure_def,
    Option.some.injEq] at h
  obtain ⟨mutex, -, rfl⟩ := h
  exact ⟨mutex, rfl⟩

theorem markFrames_counter {counter : MemoryCounter} {physicalAddress pages : Nat}
    {s t : Pageframe} (h : markFrames counter physicalAddress pages s = some t)
    (hlt : s.counter counter < 2 ^ 64) :
    t.memoryTotalSize = s.memoryTotalSize ∧
      t.counter counter = (s.counter counter +
        4096 * (frameIndexes physicalAddress pages).countP (· ≤ s.frames)) % 2 ^ 64 ∧
      ∀ c, c ≠ counter → t.counter c = s.counter c := by
  simp only [markFrames, Option.bind_eq_bind, Option.bind_eq_some_iff, Option.pure_def,
    Option.some.injEq] at h
  obtain ⟨u, hu, rfl⟩ := h
  obtain ⟨mutex, rfl⟩ := pageframeSpinlock_fields hu
  exact markFrame_foldl_counter counter _ (s := { s with mutex }) hlt

theorem releaseFrames_counter {counter : MemoryCounter} {physicalAddress pages : Nat}
    {s t : Pageframe} (h : releaseFrames counter physicalAddress pages s = some t)
    (hle : 4096 * (frameIndexes physicalAddress pages).length ≤ s.counter counter) :
    t.memoryTotalSize = s.memoryTotalSize ∧
      t.counter counter + 4096 * (frameIndexes physicalAddress pages).length =
        s.counter counter ∧
      ∀ c, c ≠ counter → t.counter c = s.counter c := by
  simp only [releaseFrames, Option.bind_eq_bind, Option.bind_eq_some_iff, Option.pure_def,
    Option.some.injEq] at h
  obtain ⟨u, hu, rfl⟩ := h
  obtain ⟨mutex, rfl⟩ := pageframeSpinlock_fields hu
  exact releaseFrame_foldl_counter counter _ (s := { s with mutex }) hle

/-! ### Calls that flip every frame they visit -/

/-- No visited frame is in use already, and none is the bit behind the bitmap. -/
def Fresh (s : Pageframe) (indexes : List Nat) : Prop :=
  ∀ i ∈ indexes, i ≤ s.frames → i < s.frames ∧ s.inUse i = false

/-- All visited frames are tracked and in use. -/
def Held (s : Pageframe) (indexes : List Nat) : Prop :=
  ∀ i ∈ indexes, i < s.frames ∧ s.inUse i = true

private theorem Balanced.frames_eq {s : Pageframe} (h : Balanced s) :
    s.frames = 8 * s.pageframemap.size := frames_eq_of_size h.size

private theorem nodup_frameIndexes (physicalAddress pages : Nat) :
    (frameIndexes physicalAddress pages).Nodup := List.nodup_range'

private theorem Marked.flips_eq {indexes : List Nat} {s t : Pageframe} (hm : Marked indexes s t)
    (hframes : s.frames = 8 * s.pageframemap.size) (hnodup : indexes.Nodup)
    (hfresh : Fresh s indexes) : flips s t = indexes.countP (· ≤ s.frames) := by
  have hset : (Finset.range (8 * s.pageframemap.size)).filter (fun i => s.inUse i ≠ t.inUse i) =
      (indexes.filter (· ≤ s.frames)).toFinset := by
    ext i
    rw [Finset.mem_filter, hm.inUse, List.mem_toFinset, List.mem_filter, Finset.mem_range,
      ← hframes]
    constructor
    · rintro ⟨hi, hne⟩
      cases hs : s.inUse i <;> simp_all
    · rintro ⟨hi, hle⟩
      obtain ⟨hlt, hfree⟩ := hfresh i hi (by simpa using hle)
      simp_all
  rw [flips, hset, List.toFinset_card_of_nodup (hnodup.filter _), List.countP_eq_length_filter]

private theorem Released.flips_eq {indexes : List Nat} {s t : Pageframe}
    (hr : Released indexes s t) (hframes : s.frames = 8 * s.pageframemap.size)
    (hnodup : indexes.Nodup) (hheld : Held s indexes) : flips t s = indexes.length := by
  have hset : (Finset.range (8 * t.pageframemap.size)).filter (fun i => t.inUse i ≠ s.inUse i) =
      indexes.toFinset := by
    ext i
    rw [Finset.mem_filter, hr.inUse, List.mem_toFinset, Finset.mem_range, hr.size, ← hframes]
    constructor
    · rintro ⟨hi, hne⟩
      cases hs : s.inUse i <;> simp_all
    · intro hi
      obtain ⟨hlt, hused⟩ := hheld i hi
      simp_all
  rw [flips, hset, List.toFinset_card_of_nodup hnodup]

private theorem Balanced.markFrames_grows {counter : MemoryCounter} {physicalAddress pages : Nat}
    {s t : Pageframe} (h : Balanced s) (hm : markFrames counter physicalAddress pages s = some t)
    (hfresh : Fresh s (frameIndexes physicalAddress pages)) : Grows counter s t := by
  have hmarked := markFrames_marked hm
  have hsub : s.marked ⊆ t.marked := by
    intro i hi
    rw [Pageframe.mem_marked] at hi ⊢
    rw [hmarked.size, hmarked.inUse, hi.2]
    exact ⟨hi.1, rfl⟩
  have hflips := hmarked.flips_eq h.frames_eq (nodup_frameIndexes _ _) hfresh
  have hcounter := h.counter_le counter
  have hsize := h.size
  have hcard := s.card_marked_le
  obtain ⟨htotal, hcounted, hother⟩ := markFrames_counter hm (by omega)
  refine ⟨hmarked.size, htotal, hsub, ?_, hother⟩
  -- The new sum is at most the bitmap's size, so the counter does not wrap.
  have hroom : s.marked.card + flips s t ≤ 8 * s.pageframemap.size := by
    rw [← card_marked_of_subset hmarked.size hsub, ← hmarked.size]
    exact t.card_marked_le
  rw [hcounted, ← hflips]
  omega

private theorem Balanced.releaseFrames_shrinks {counter : MemoryCounter}
    {physicalAddress pages : Nat} {s t : Pageframe} (h : Balanced s)
    (hr : releaseFrames counter physicalAddress pages s = some t)
    (hheld : Held s (frameIndexes physicalAddress pages))
    (hle : 4096 * (frameIndexes physicalAddress pages).length ≤ s.counter counter) :
    Grows counter t s := by
  have hreleased := releaseFrames_released hr
  have hsub : t.marked ⊆ s.marked := by
    intro i hi
    rw [Pageframe.mem_marked] at hi ⊢
    rw [hreleased.size, hreleased.inUse] at hi
    exact ⟨hi.1, (Bool.and_eq_true_iff.mp hi.2).1⟩
  have hflips := hreleased.flips_eq h.frames_eq (nodup_frameIndexes _ _) hheld
  obtain ⟨htotal, hcounted, hother⟩ := releaseFrames_counter hr hle
  refine ⟨hreleased.size.symm, htotal.symm, hsub, ?_, fun c hc => (hother c hc).symm⟩
  rw [hflips, hcounted]

private theorem requestScan_grows (n : Nat) {page : Nat} {s t : Pageframe} (h : Balanced s)
    (hn : n = s.frames - s.currentIndex) (hscan : pageframeRequestScan n s = some (page, t)) :
    Grows .used s t := by
  induction n generalizing s with
  | zero =>
      rw [pageframeRequestScan, Option.some.injEq, Prod.mk.injEq] at hscan
      obtain ⟨-, rfl⟩ := hscan
      exact Grows.refl .used s
  | succ n ih =>
      have hframes := h.frames_eq
      have hsize := h.size
      have hnext : (s.currentIndex + 1) % 2 ^ 64 = s.currentIndex + 1 :=
        Nat.mod_eq_of_lt (by omega)
      rw [pageframeRequestScan, hnext] at hscan
      have hb := h.uncounted (s.currentIndex + 1) s.mutex
      by_cases hused : bitmapGet s.pageframemap s.currentIndex = true
      · rw [if_pos hused] at hscan
        have hleft : n = s.frames - (s.currentIndex + 1) := by omega
        exact (ih hb hleft hscan).from_uncounted
      · rw [if_neg hused] at hscan
        simp only [Option.bind_eq_bind, Option.pure_def, Option.bind_eq_some_iff,
          Option.some.injEq, Prod.mk.injEq] at hscan
        obtain ⟨u, hu, -, rfl⟩ := hscan
        have hpage : s.currentIndex * 4096 % 2 ^ 64 = s.currentIndex * 4096 :=
          Nat.mod_eq_of_lt (by omega)
        have hfresh : Fresh { s with currentIndex := s.currentIndex + 1 }
            (frameIndexes (s.currentIndex * 4096 % 2 ^ 64) 1) := by
          rw [hpage, frameIndexes_single (by omega)]
          intro i hi _
          rw [List.mem_singleton.mp hi]
          exact ⟨show s.currentIndex < s.frames by omega, Bool.eq_false_iff.mpr hused⟩
        exact (hb.markFrames_grows hu hfresh).from_uncounted

private theorem Balanced.request_grows {page : Nat} {s t : Pageframe} (h : Balanced s)
    (hreq : pageframeRequest s = some (page, t)) : Grows .used s t := by
  simp only [pageframeRequest, Option.bind_eq_bind, Option.bind_eq_some_iff, Option.pure_def,
    Option.some.injEq, Prod.exists, Prod.mk.injEq] at hreq
  obtain ⟨u, hu, _, v, hscan, -, rfl⟩ := hreq
  obtain ⟨mutex, rfl⟩ := pageframeSpinlock_fields hu
  have hgrows := requestScan_grows _ (h.uncounted s.currentIndex mutex) rfl hscan
  exact ⟨hgrows.size, hgrows.total, hgrows.marked, hgrows.counted, hgrows.other⟩

private theorem Balanced.requestPages_grows {rounds pages page : Nat} {s t : Pageframe}
    (h : Balanced s) (hover : ¬Overhangs s pages)
    (hreq : pageframeRequestPages rounds pages s = some (page, t)) : Grows .used s t := by
  have hframes := h.frames_eq
  have hsize := h.size
  obtain ⟨c, hscans, ⟨-, -, rfl⟩ | ⟨hlt, hclear, rfl, -, u, hlock, rfl⟩⟩ :=
    pageframeRequestPages_some hreq
  · exact (Grows.refl .used { s with currentIndex := c }).from_uncounted
  · have hpage : c * 4096 % 2 ^ 64 / 4096 = c := by omega
    have hfresh : Fresh s (frameIndexes (c * 4096 % 2 ^ 64) pages) := by
      intro i hi hle
      simp only [frameIndexes, hpage, List.mem_range'_1] at hi
      have hmod := Nat.mod_le (c + pages) (2 ^ 64)
      refine ⟨?_, ?_⟩
      · by_contra hnot
        exact hover (.of_scans (by omega) hscans hlt hclear (by omega))
      · have hfree := hclear (i - c) (by omega)
        rwa [show (c + (i - c)) % 2 ^ 64 = i by omega] at hfree
    have hgrows := ((h.uncounted _ _).markFrames_grows hlock hfresh).from_uncounted
    exact ⟨hgrows.size, hgrows.total, hgrows.marked, hgrows.counted, hgrows.other⟩

/-- The call flips every frame it counts. -/
def Accurate (s : Pageframe) : PageframeAction → Prop
  | .request => True
  | .requestPages pages => ¬Overhangs s pages
  | .lock physicalAddress pages => Fresh s (frameIndexes physicalAddress pages)
  | .reserve physicalAddress pages => Fresh s (frameIndexes physicalAddress pages)
  | .free physicalAddress pages =>
      Held s (frameIndexes physicalAddress pages) ∧
        4096 * (frameIndexes physicalAddress pages).length ≤ s.memoryUsedSize
  | .unreserve physicalAddress pages =>
      Held s (frameIndexes physicalAddress pages) ∧
        4096 * (frameIndexes physicalAddress pages).length ≤ s.memoryReservedSize

/-- The call changes its own counter by 4096 for each bit it flips. -/
def PageframeAction.Counts (s : Pageframe) (t : Pageframe) : PageframeAction → Prop
  | .request => Grows .used s t
  | .requestPages _ => Grows .used s t
  | .lock _ _ => Grows .used s t
  | .reserve _ _ => Grows .reserved s t
  | .free _ _ => Grows .used t s
  | .unreserve _ _ => Grows .reserved t s

private theorem Balanced.counts {s t : Pageframe} {a : PageframeAction} (h : Balanced s)
    (hok : Accurate s a) (hstep : PageframeStep s a t) : a.Counts s t := by
  cases hstep with
  | request hr => exact h.request_grows hr
  | requestPages hr => exact h.requestPages_grows hok hr
  | free hr => exact h.releaseFrames_shrinks hr hok.1 hok.2
  | lock hm => exact h.markFrames_grows hm hok
  | reserve hm => exact h.markFrames_grows hm hok
  | unreserve hr => exact h.releaseFrames_shrinks hr hok.1 hok.2

private theorem Balanced.step {s t : Pageframe} {a : PageframeAction} (h : Balanced s)
    (hok : Accurate s a) (hstep : PageframeStep s a t) : Balanced t := by
  have hcounts := h.counts hok hstep
  cases a with
  | request => exact h.grows hcounts
  | requestPages _ => exact h.grows hcounts
  | free _ _ => exact h.shrinks hcounts
  | lock _ _ => exact h.grows hcounts
  | reserve _ _ => exact h.grows hcounts
  | unreserve _ _ => exact h.shrinks hcounts

/-! ### The passes of `pageframe_init` -/

/-- The frames that `pageframe_init` marks after it has released the usable regions: the
bitmap's own, the kernel image's and the first 256. -/
def bootFrames (symbols : LinkerSymbols) (memorymap : List MemoryMapEntry)
    (largest : MemoryMapEntry) : List Nat :=
  frameIndexes largest.physicalBase (nearestPage (totalSize memorymap / 4096 / 8)) ++
    (kernelFrames symbols ++ frameIndexes 0 pageframeInitialReservePages)

/-- The frames that the bitmap tracks. -/
def trackedFrames (memorymap : List MemoryMapEntry) : Nat := 8 * (totalSize memorymap / 4096 / 8)

/-- The passes of `pageframe_init` count what they flip.  Where the bitmap does not cover the memory,
the first pass counts the bit behind it, and one usable frame has to make up for that. -/
structure BootAccurate (symbols : LinkerSymbols) (memorymap : List MemoryMapEntry)
    (largest : MemoryMapEntry) : Prop where
  regions_nodup : (memorymap.flatMap entryFrames).Nodup
  regions_tracked : (memorymap.flatMap entryFrames).countP (trackedFrames memorymap ≤ ·) =
    if totalSize memorymap / 4096 = trackedFrames memorymap then 0 else 1
  boot_nodup : (bootFrames symbols memorymap largest).Nodup
  boot_usable : ∀ i ∈ bootFrames symbols memorymap largest,
    i < trackedFrames memorymap ∧ i ∈ memorymap.flatMap entryFrames

private theorem Booted.free_of_notMem {memory : Nat → BitVec 8} {symbols : LinkerSymbols}
    {memorymap : List MemoryMapEntry} {largest : MemoryMapEntry} {s : Pageframe}
    (h : Booted memory symbols memorymap largest s) {i : Nat} (hi : i ≤ s.frames)
    (husable : i ∈ memorymap.flatMap entryFrames)
    (hboot : i ∉ bootFrames symbols memorymap largest) : s.inUse i = false := by
  rw [← Bool.not_eq_true, h.inUse i hi, h.size]
  simp only [bootFrames, List.mem_append, not_or] at hboot
  simp [husable, hboot]

private theorem countP_frameIndexes_zero {pages frames : Nat} (hpages : pages < 2 ^ 64) :
    (frameIndexes 0 pages).countP (· ≤ frames) = min pages (frames + 1) := by
  have hindexes : frameIndexes 0 pages = List.range' 0 pages := by
    rw [frameIndexes, Nat.zero_div, Nat.zero_add, Nat.mod_eq_of_lt hpages, Nat.sub_zero]
  have hsplit : List.range' 0 pages =
      List.range' 0 (min pages (frames + 1)) ++
        List.range' (min pages (frames + 1)) (pages - (frames + 1)) := by
    have happend := @List.range'_append_1 0 (min pages (frames + 1)) (pages - (frames + 1))
    rw [Nat.zero_add] at happend
    rw [happend]
    congr 1
    omega
  rw [hindexes, hsplit, List.countP_append, List.countP_eq_length.mpr, List.countP_eq_zero.mpr,
    List.length_range', Nat.add_zero]
  · intro i hi
    simp only [List.mem_range'_1] at hi
    simp only [decide_eq_true_eq]
    omega
  · intro i hi
    simp only [List.mem_range'_1] at hi
    simp only [decide_eq_true_eq]
    omega

private theorem reserve_all {s t : Pageframe} (hsize : s.pageframemap.size < 2 ^ 49)
    (hused : s.memoryUsedSize = 0) (hreserved : s.memoryReservedSize = 0)
    (htotal : s.memoryTotalSize < 2 ^ 64)
    (hbitmap : s.pageframemap.size = s.memoryTotalSize / 4096 / 8)
    (hm : pageframeReserve 0 (s.memoryTotalSize / 4096) s = some t) :
    t.memoryTotalSize = s.memoryTotalSize ∧ t.memoryUsedSize = 0 ∧
      t.memoryReservedSize = 4096 * (s.frames +
        if s.memoryTotalSize / 4096 = s.frames then 0 else 1) ∧
      ∀ i < s.frames, t.inUse i = true := by
  have hmarked := markFrames_marked hm
  have hframes := frames_eq_of_size hsize
  obtain ⟨htotal', hcounted, hother⟩ := markFrames_counter hm (by simp [Pageframe.counter, hreserved])
  refine ⟨htotal', (hother .used (by decide)).trans hused, ?_, ?_⟩
  · rw [countP_frameIndexes_zero (by omega)] at hcounted
    simp only [Pageframe.counter, hreserved] at hcounted
    split <;> omega
  · intro i hi
    have hmem : i ∈ frameIndexes 0 (s.memoryTotalSize / 4096) := by
      rw [mem_frameIndexes (by omega)]
      omega
    rw [hmarked.inUse]
    simp [hmem, hi.le]

private theorem unreserve_counter {s t : Pageframe} {memorymap : List MemoryMapEntry}
    (hle : 4096 * (memorymap.flatMap entryFrames).length ≤ s.memoryReservedSize)
    (hfold : memorymap.foldlM unreserveEntry s = some t) :
    t.memoryTotalSize = s.memoryTotalSize ∧ t.memoryUsedSize = s.memoryUsedSize ∧
      t.memoryReservedSize + 4096 * (memorymap.flatMap entryFrames).length =
        s.memoryReservedSize := by
  induction memorymap generalizing s with
  | nil =>
      rw [List.foldlM_nil, Option.pure_def, Option.some.injEq] at hfold
      subst hfold
      exact ⟨rfl, rfl, rfl⟩
  | cons entry memorymap ih =>
      rw [List.foldlM_cons, Option.bind_eq_bind, Option.bind_eq_some_iff] at hfold
      obtain ⟨u, hu, hfold⟩ := hfold
      rw [List.flatMap_cons, List.length_append] at hle ⊢
      unfold unreserveEntry at hu
      by_cases htype : entry.type = .usable
      · rw [if_neg (not_not.mpr htype)] at hu
        rw [entryFrames, if_pos htype] at hle ⊢
        obtain ⟨htotal, hcounted, hother⟩ := releaseFrames_counter hu (by
          simp only [Pageframe.counter]
          omega)
        simp only [Pageframe.counter] at hcounted
        obtain ⟨htotal', hused', hreserved'⟩ := ih (by omega) hfold
        exact ⟨htotal'.trans htotal, hused'.trans (hother .used (by decide)), by omega⟩
      · rw [if_pos htype, Option.some.injEq] at hu
        subst hu
        rw [entryFrames, if_neg htype, List.length_nil, Nat.zero_add] at hle ⊢
        exact ih hle hfold

private theorem card_marked_released {frames : List Nat} {s t : Pageframe}
    (hr : Released frames s t) (hsize : s.frames = 8 * s.pageframemap.size)
    (hall : ∀ i < s.frames, s.inUse i = true) (hnodup : frames.Nodup) :
    t.marked.card + frames.length = s.frames + frames.countP (s.frames ≤ ·) := by
  have hmarked : t.marked = Finset.range s.frames \ (frames.filter (· < s.frames)).toFinset := by
    ext i
    rw [Pageframe.mem_marked, hr.size, hr.inUse, ← hsize, Finset.mem_sdiff, Finset.mem_range,
      List.mem_toFinset, List.mem_filter]
    constructor
    · rintro ⟨hi, hused⟩
      simp_all
    · rintro ⟨hi, hnot⟩
      simp_all
  have hsub : (frames.filter (· < s.frames)).toFinset ⊆ Finset.range s.frames := by
    intro i hi
    simpa using (List.mem_filter.mp (List.mem_toFinset.mp hi)).2
  have hcard := Finset.card_sdiff_add_card_eq_card hsub
  rw [← hmarked, List.toFinset_card_of_nodup (hnodup.filter _), Finset.card_range,
    ← List.countP_eq_length_filter] at hcard
  have hlength := frames.length_eq_countP_add_countP (· < s.frames)
  have hnot : frames.countP (fun i => ¬decide (i < s.frames) = true) =
      frames.countP (s.frames ≤ ·) := by
    simp only [decide_eq_true_eq, not_lt]
  omega

private theorem Fresh.after {xs ys : List Nat} {s t : Pageframe} (h : Fresh s (xs ++ ys))
    (hnodup : (xs ++ ys).Nodup) (hm : Marked xs s t) : Fresh t ys := by
  intro i hi hle
  rw [hm.frames] at hle ⊢
  obtain ⟨hlt, hfree⟩ := h i (List.mem_append_right _ hi) hle
  have hnot : i ∉ xs := fun hmem => (List.nodup_append.mp hnodup).2.2 i hmem i hi rfl
  rw [hm.inUse, hfree]
  exact ⟨hlt, by simp [hnot]⟩

private theorem Fresh.before {xs ys : List Nat} {s : Pageframe} (h : Fresh s (xs ++ ys)) :
    Fresh s xs := fun i hi => h i (List.mem_append_left _ hi)

private theorem balanced_pageframeInit {memory : Nat → BitVec 8} {symbols : LinkerSymbols}
    {memorymap : List MemoryMapEntry} {s : Pageframe}
    (hinit : pageframeInit memory symbols memorymap = some s)
    (hacc : ∀ largest ∈ largestPrimary memorymap, BootAccurate symbols memorymap largest) :
    Balanced s := by
  simp only [pageframeInit, Option.bind_eq_bind, Option.bind_eq_some_iff] at hinit
  obtain ⟨largest, hlargest, s₁, e₁, s₂, e₂, s₃, e₃, s₄, e₄, e₅⟩ := hinit
  obtain ⟨hregions, htracked, hboot, husable⟩ := hacc largest hlargest
  have htotal := totalSize_lt memorymap
  have hsize₀ : totalSize memorymap / 4096 / 8 < 2 ^ 49 := by omega
  have m₁ := markFrames_marked e₁
  obtain ⟨htotal₁, hused₁, hreserved₁, hall₁⟩ := reserve_all hsize₀ rfl rfl htotal rfl e₁
  have hsize₁ : s₁.pageframemap.size = totalSize memorymap / 4096 / 8 := m₁.size
  have q₁ : Quiet s₁ := ⟨hsize₁ ▸ hsize₀, m₁.mutex⟩
  have hframes₁ : s₁.frames = trackedFrames memorymap := by
    rw [q₁.frames_eq, hsize₁, trackedFrames]
  rw [← m₁.frames, hframes₁] at hreserved₁ hall₁
  obtain ⟨s₂', e₂', r₂⟩ := unreserve_foldlM q₁ memorymap
  rw [e₂, Option.some.injEq] at e₂'
  subst e₂'
  have hsize₂ : s₂.pageframemap.size = totalSize memorymap / 4096 / 8 := r₂.size.trans hsize₁
  have hcard := card_marked_released r₂ q₁.frames_eq (hframes₁ ▸ hall₁) hregions
  rw [hframes₁, htracked] at hcard
  have hreserved₁' : s₁.memoryReservedSize =
      4096 * (s₂.marked.card + (memorymap.flatMap entryFrames).length) := by
    rw [hcard, hreserved₁]
  obtain ⟨htotal₂, hused₂, hreserved₂⟩ := unreserve_counter (by omega) e₂
  have b₂ : Balanced s₂ := by
    refine ⟨hsize₂ ▸ hsize₀, ?_, ?_, ?_⟩
    · rw [hsize₂, htotal₂, htotal₁]
      change _ ≤ totalSize memorymap
      omega
    · rw [htotal₂, htotal₁]
      exact htotal
    · rw [memoryGetUsedSize, memoryGetReservedSize, hused₂, hused₁]
      omega
  have hfresh : Fresh s₂ (bootFrames symbols memorymap largest) := by
    intro i hi _
    obtain ⟨hlt, hmem⟩ := husable i hi
    rw [r₂.frames, r₂.inUse, hframes₁]
    exact ⟨hlt, by simp [hmem]⟩
  unfold bootFrames at hboot hfresh
  rw [hsize₂] at e₃
  have m₃ := markFrames_marked e₃
  have b₃ := b₂.grows (b₂.markFrames_grows e₃ hfresh.before)
  have hfresh₃ := hfresh.after hboot m₃
  have hboot₃ := (List.nodup_append.mp hboot).2.1
  have m₄ := markFrames_marked e₄
  have b₄ := b₃.grows (b₃.markFrames_grows e₄ hfresh₃.before)
  exact b₄.grows (b₄.markFrames_grows e₅ (hfresh₃.after hboot₃ m₄))

/-- In every run of accurate calls after an accurate boot, the two counters make up the bits
of the bitmap, the free size is what they leave of the total, and the next accurate call
changes its counter by the bits it flips. -/
theorem memory_accounting {memory : Nat → BitVec 8} {symbols : LinkerSymbols}
    {memorymap : List MemoryMapEntry} {s₀ s : Pageframe} {actions : List PageframeAction}
    (hinit : pageframeInit memory symbols memorymap = some s₀)
    (hboot : ∀ largest ∈ largestPrimary memorymap, BootAccurate symbols memorymap largest)
    (hrun : Run (Guarded PageframeStep Accurate) s₀ actions s) :
    memoryGetUsedSize s + memoryGetReservedSize s = 4096 * s.marked.card ∧
      memoryGetFree s + memoryGetUsedSize s + memoryGetReservedSize s = s.memoryTotalSize ∧
      ∀ a t, Accurate s a → PageframeStep s a t → a.Counts s t := by
  have hbalanced : Balanced s :=
    hrun.invariant (fun _ _ _ hb hstep => hb.step hstep.1 hstep.2)
      (balanced_pageframeInit hinit hboot)
  exact ⟨hbalanced.sum, hbalanced.memoryGetFree_eq, fun a t hok hstep => hbalanced.counts hok hstep⟩

/-- The first 256 frames are reserved twice where they are not usable memory, so that the
counters exceed the whole memory and the free size wraps around. -/
theorem memory_accounting_broken :
    ∃ s, pageframeInit (fun _ => 0) (smallSymbols 2) smallMap = some s ∧
      memoryGetUsedSize s + memoryGetReservedSize s ≠ 4096 * s.marked.card ∧
      s.memoryTotalSize < memoryGetUsedSize s + memoryGetReservedSize s := by
  have h : (pageframeInit (fun _ => 0) (smallSymbols 2) smallMap).map
      (fun s => (s.memoryTotalSize, s.memoryUsedSize, s.memoryReservedSize)) =
      some (264 * 4096, 3 * 4096, 512 * 4096) := by
    decide +kernel
  rw [Option.map_eq_some_iff] at h
  obtain ⟨s, hs, hfields⟩ := h
  simp only [Prod.mk.injEq] at hfields
  obtain ⟨htotal, hused, hreserved⟩ := hfields
  obtain ⟨largest, -, hbooted⟩ := pageframeInit_booted hs
  have hsize : s.pageframemap.size = 33 := hbooted.size
  have hcard := s.card_marked_le
  refine ⟨s, hs, ?_, ?_⟩
  · rw [memoryGetUsedSize, memoryGetReservedSize, hused, hreserved]
    omega
  · rw [memoryGetUsedSize, memoryGetReservedSize, hused, hreserved, htotal]
    decide

/-- Two usable regions, of which the first is exactly the memory reserved last.  The bitmap does not
track the last frame of the second. -/
def plainMap : List MemoryMapEntry := [⟨0, 256, .usable⟩, ⟨0x100000, 265, .usable⟩]

private theorem plainMap_regions : plainMap.flatMap entryFrames = List.range' 0 521 := by
  decide +kernel

private theorem plainMap_bootFrames :
    bootFrames (smallSymbols 2) plainMap ⟨0x100000, 265, .usable⟩ =
      List.range' 256 1 ++ (List.range' 258 2 ++ List.range' 0 256) := rfl

private theorem plainMap_accurate :
    BootAccurate (smallSymbols 2) plainMap ⟨0x100000, 265, .usable⟩ := by
  refine ⟨?_, ?_, ?_, ?_⟩
  · rw [plainMap_regions]
    exact List.nodup_range'
  · rw [plainMap_regions]
    decide +kernel
  · rw [plainMap_bootFrames, List.nodup_append, List.nodup_append]
    refine ⟨List.nodup_range', ⟨List.nodup_range', List.nodup_range', ?_⟩, ?_⟩
    · intro i hi j hj
      rw [List.mem_range'_1] at hi hj
      omega
    · intro i hi j hj
      simp only [List.mem_append, List.mem_range'_1] at hi hj
      omega
  · intro i hi
    have htracked : trackedFrames plainMap = 520 := rfl
    rw [plainMap_regions, htracked, List.mem_range'_1]
    simp only [plainMap_bootFrames, List.mem_append, List.mem_range'_1] at hi
    omega

private theorem plainMap_free {s : Pageframe}
    (h : Booted (fun _ => 0) (smallSymbols 2) plainMap ⟨0x100000, 265, .usable⟩ s) :
    s.frames = 520 ∧ ∀ i, 260 ≤ i → i < 520 → s.inUse i = false := by
  have hframes : s.frames = 520 := by
    rw [h.quiet.frames_eq, h.size]
    rfl
  refine ⟨hframes, ?_⟩
  intro i hi hlt
  apply h.free_of_notMem (by omega)
  · rw [plainMap_regions, List.mem_range'_1]
    omega
  · simp only [plainMap_bootFrames, List.mem_append, List.mem_range'_1]
    omega

private theorem Requested.free_above {s t : Pageframe} {page a : Nat} (h : Requested s page t)
    (ha : a < s.frames) (hindex : s.currentIndex ≤ a)
    (hfree : ∀ i, a ≤ i → i < s.frames → s.inUse i = false) :
    t.frames = s.frames ∧ t.currentIndex ≤ a + 1 ∧
      ∀ i, a + 1 ≤ i → i < s.frames → t.inUse i = false := by
  have hused : ∀ i, s.inUse i = true → a ≤ i → s.frames ≤ i := by
    intro i hi hle
    by_contra hlt
    rw [hfree i hle (by omega)] at hi
    exact Bool.noConfusion hi
  cases h with
  | exhausted hall =>
      have := hused a (hall a hindex ha) le_rfl
      omega
  | @found r t hr hlt hrfree hall hm =>
      have hle : r ≤ a := by
        by_contra hgt
        have := hused a (hall a hindex (by omega)) le_rfl
        omega
      refine ⟨hm.frames, ?_, ?_⟩
      · rw [hm.currentIndex]
        exact Nat.succ_le_succ hle
      · intro i hi hlt'
        rw [hm.inUse, Pageframe.inUse_hint, hfree i (by omega) hlt']
        simp only [Bool.false_or, Bool.and_eq_false_iff, decide_eq_false_iff_not,
          List.mem_singleton]
        omega

private theorem RequestedPages.free_above {s t : Pageframe} {pages page a : Nat}
    (h : RequestedPages pages s page t) (hframes : s.frames < 2 ^ 52) (ha : a + pages ≤ s.frames)
    (hindex : s.currentIndex ≤ a) (hfree : ∀ i, a ≤ i → i < s.frames → s.inUse i = false) :
    t.frames = s.frames ∧ ∀ i, a + pages ≤ i → i < s.frames → t.inUse i = false := by
  have hrun : ∀ j < pages, s.inUse (a + j) = false := fun j hj => hfree _ (by omega) (by omega)
  cases h with
  | exhausted hscans hend =>
      have := scans_le hframes ha hrun hindex hscans
      exact ⟨rfl, fun i hi hlt => by omega⟩
  | @found c t hscans hlt hclear hm =>
      have := scans_le hframes ha hrun hindex hscans
      refine ⟨hm.frames, ?_⟩
      intro i hi hlt'
      have hnot : i ∉ frameIndexes (c * 4096 % 2 ^ 64) pages := by
        rw [mem_frameIndexes (by omega)]
        omega
      rw [hm.inUse, Pageframe.inUse_hint, hfree i (by omega) hlt', decide_eq_false hnot,
        Bool.false_and, Bool.or_false]

/-- A frame and a block of two frames are requested, and two more are locked and freed again. -/
theorem memory_accounting_plain :
    ∃ s₀ s, pageframeInit (fun _ => 0) (smallSymbols 2) plainMap = some s₀ ∧
      Run (Guarded PageframeStep Accurate) s₀
        [.request, .requestPages 2, .lock (300 * 4096) 2, .free (300 * 4096) 2] s ∧
      memoryGetUsedSize s + memoryGetReservedSize s = 4096 * s.marked.card ∧
      memoryGetFree s + memoryGetUsedSize s + memoryGetReservedSize s = s.memoryTotalSize ∧
      ∀ a t, Accurate s a → PageframeStep s a t → a.Counts s t := by
  have hlargest : largestPrimary plainMap = some ⟨0x100000, 265, .usable⟩ := rfl
  have hacc : ∀ largest ∈ largestPrimary plainMap,
      BootAccurate (smallSymbols 2) plainMap largest := by
    intro largest hl
    obtain rfl := Option.some.inj hl
    exact plainMap_accurate
  obtain ⟨s₀, hs₀, hbooted⟩ := pageframeInit_spec (fun _ => 0) (smallSymbols 2) hlargest
  obtain ⟨hframes₀, hfree₀⟩ := plainMap_free hbooted
  have b₀ := balanced_pageframeInit hs₀ hacc
  have q₀ := hbooted.quiet
  -- The request takes a frame up to 260, the block lies below 263.
  obtain ⟨page₁, s₁, hs₁⟩ := pageframeRequest_returns (q₀.bit_free .request) (q₀.bit_free .lock)
  have step₁ : PageframeStep s₀ .request s₁ := .request hs₁
  have q₁ := q₀.step step₁
  have b₁ : Balanced s₁ := Balanced.step b₀ (a := .request) trivial step₁
  obtain ⟨hframes₁, hindex₁, hfree₁⟩ := (pageframeRequest_requested q₀.frames_lt hs₁).free_above
    (by omega : 260 < s₀.frames) (by rw [hbooted.currentIndex]; omega) (hframes₀ ▸ hfree₀)
  rw [hframes₀] at hframes₁ hfree₁
  have hrun₁ : ∀ j < 2, s₁.inUse (261 + j) = false := fun j hj => hfree₁ _ (by omega) (by omega)
  have hfits : ¬Overhangs s₁ 2 := fun hover => hover.2.1 ⟨261, hindex₁, by omega, hrun₁⟩
  obtain ⟨c, hscans, hend⟩ := scans_stop s₁ 2 s₁.currentIndex (by omega)
  obtain ⟨rounds, s₂, hs₂⟩ := pageframeRequestPages_returns hscans hend (q₁.bit_free .request)
    (q₁.bit_free .lock)
  have step₂ : PageframeStep s₁ (.requestPages 2) s₂ := .requestPages hs₂
  have q₂ := q₁.step step₂
  have b₂ : Balanced s₂ := Balanced.step b₁ (a := .requestPages 2) hfits step₂
  obtain ⟨hframes₂, hfree₂⟩ := (pageframeRequestPages_requested hs₂).free_above q₁.frames_lt
    (by omega : 261 + 2 ≤ s₁.frames) hindex₁ (hframes₁ ▸ hfree₁)
  rw [hframes₁] at hframes₂ hfree₂
  have hindexes : frameIndexes (300 * 4096) 2 = [300, 301] := rfl
  have hfresh : Fresh s₂ (frameIndexes (300 * 4096) 2) := by
    rw [hindexes]
    intro i hi _
    have hrange : 300 ≤ i ∧ i < 302 := by
      simp only [List.mem_cons, List.not_mem_nil, or_false] at hi
      omega
    exact ⟨by omega, hfree₂ i (by omega) (by omega)⟩
  obtain ⟨s₃, hs₃, m₃⟩ := markFrames_spec .used (300 * 4096) 2 (q₂.bit_free .lock)
  obtain ⟨s₄, hs₄, -⟩ := releaseFrames_spec .used (300 * 4096) 2 ((q₂.marked m₃).bit_free .free)
  have hheld : Held s₃ (frameIndexes (300 * 4096) 2) := by
    intro i hi
    obtain ⟨hlt, -⟩ := hfresh i hi (by
      simp only [hindexes, List.mem_cons, List.not_mem_nil, or_false] at hi
      omega)
    rw [m₃.inUse, m₃.frames]
    simp [hi, hlt, hlt.le]
  have hused : 4096 * (frameIndexes (300 * 4096) 2).length ≤ s₃.memoryUsedSize := by
    have hcounted := (b₂.markFrames_grows hs₃ hfresh).counted
    rw [m₃.flips_eq b₂.frames_eq (nodup_frameIndexes _ _) hfresh, hindexes, hframes₂] at hcounted
    have hcount : [300, 301].countP (· ≤ 520) = 2 := rfl
    rw [hcount] at hcounted
    simp only [Pageframe.counter] at hcounted
    rw [hindexes, hcounted]
    exact Nat.le_add_left _ _
  have hrun : Run (Guarded PageframeStep Accurate) s₀
      [.request, .requestPages 2, .lock (300 * 4096) 2, .free (300 * 4096) 2] s₄ :=
    .cons ⟨trivial, step₁⟩ (.cons ⟨hfits, step₂⟩
      (.cons ⟨hfresh, .lock hs₃⟩ (.cons ⟨⟨hheld, hused⟩, .free hs₄⟩ (.nil s₄))))
  exact ⟨s₀, s₄, hs₀, hrun, memory_accounting hs₀ hacc hrun⟩

end VisualOS.Kernel
