import VisualOS.Memory.PageframeRanges

/-!
# Requesting frames

The two searches, each reduced to the position at which it stops.  A multi-page search
moves by skips: from a position inside the bitmap to the one right after the first frame in
use among the next `pages` ones, all positions being taken modulo `2 ^ 64`.
-/

namespace VisualOS.Kernel

/-- The outcomes of `pageframe_request`. -/
inductive Requested (s : Pageframe) : Nat → Pageframe → Prop
  | exhausted : (∀ i, s.currentIndex ≤ i → i < s.frames → s.inUse i = true) →
      Requested s 0 { s with currentIndex := max s.currentIndex s.frames }
  | found {r : Nat} {t : Pageframe} : s.currentIndex ≤ r → r < s.frames → s.inUse r = false →
      (∀ i, s.currentIndex ≤ i → i < r → s.inUse i = true) →
      Marked [r] { s with currentIndex := r + 1 } t → Requested s (r * 4096) t

theorem frameIndexes_single {r : Nat} (h : r < 2 ^ 52) :
    frameIndexes (r * 4096) 1 = [r] := by
  have hmod : (r + 1) % 2 ^ 64 = r + 1 := Nat.mod_eq_of_lt (by omega)
  have hlen : r + 1 - r = 1 := by omega
  simp only [frameIndexes, Nat.mul_div_cancel r (by decide : 0 < 4096), hmod, hlen,
    List.range'_one]

private theorem Requested.step {s t : Pageframe} {page : Nat}
    (hlt : s.currentIndex < s.frames) (hused : s.inUse s.currentIndex = true)
    (h : Requested { s with currentIndex := s.currentIndex + 1 } page t) :
    Requested s page t := by
  cases h with
  | exhausted hall =>
      have hmax : max (s.currentIndex + 1) s.frames = max s.currentIndex s.frames := by omega
      have hres : Requested s 0 { s with currentIndex := max s.currentIndex s.frames } := by
        apply Requested.exhausted
        intro i hi hif
        rcases Nat.eq_or_lt_of_le hi with rfl | hi
        · exact hused
        · exact hall i hi hif
      rw [← hmax] at hres
      exact hres
  | found hle hr hfree hall hmarked =>
      have hle : s.currentIndex + 1 ≤ _ := hle
      refine .found (by omega) hr hfree ?_ hmarked
      intro i hi hir
      rcases Nat.eq_or_lt_of_le hi with rfl | hi
      · exact hused
      · exact hall i hi hir

private theorem requestScan_sound (n : Nat) {page : Nat} {s t : Pageframe}
    (hframes : s.frames < 2 ^ 52) (hn : n = s.frames - s.currentIndex)
    (h : pageframeRequestScan n s = some (page, t)) : Requested s page t := by
  induction n generalizing s with
  | zero =>
      have hmax : max s.currentIndex s.frames = s.currentIndex := by omega
      have hres : Requested s 0 { s with currentIndex := max s.currentIndex s.frames } :=
        .exhausted (fun i hi hif => by omega)
      rw [pageframeRequestScan, Option.some.injEq, Prod.mk.injEq] at h
      obtain ⟨rfl, rfl⟩ := h
      rw [hmax] at hres
      exact hres
  | succ n ih =>
      have hlt : s.currentIndex < s.frames := by omega
      have hnext : (s.currentIndex + 1) % 2 ^ 64 = s.currentIndex + 1 :=
        Nat.mod_eq_of_lt (by omega)
      rw [pageframeRequestScan, hnext] at h
      by_cases hused : s.inUse s.currentIndex = true
      · rw [if_pos (show bitmapGet _ _ = true from hused)] at h
        refine Requested.step hlt hused (ih hframes ?_ h)
        change n = s.frames - (s.currentIndex + 1)
        omega
      · have hfree : s.inUse s.currentIndex = false := by simpa using hused
        have hpage : s.currentIndex * 4096 % 2 ^ 64 = s.currentIndex * 4096 :=
          Nat.mod_eq_of_lt (by omega)
        rw [if_neg (show ¬bitmapGet _ _ = true from hused), hpage] at h
        simp only [Option.bind_eq_bind, Option.pure_def, Option.bind_eq_some_iff,
          Option.some.injEq, Prod.mk.injEq] at h
        obtain ⟨u, hu, rfl, rfl⟩ := h
        have hmarked := markFrames_marked hu
        rw [frameIndexes_single (by omega)] at hmarked
        exact .found le_rfl hlt hfree (fun i hi hir => by omega) hmarked

private theorem requestScan_returns (n : Nat) {s : Pageframe}
    (hlock : s.mutex.getLsbD PageframeMutexBit.lock.toNat = false) :
    ∃ page t, pageframeRequestScan n s = some (page, t) := by
  induction n generalizing s with
  | zero => exact ⟨0, s, rfl⟩
  | succ n ih =>
      rw [pageframeRequestScan]
      by_cases hused : bitmapGet s.pageframemap s.currentIndex = true
      · rw [if_pos hused]
        exact ih hlock
      · obtain ⟨t, ht, -⟩ := markFrames_spec .used (s.currentIndex * 4096 % 2 ^ 64) 1
          (s := { s with currentIndex := (s.currentIndex + 1) % 2 ^ 64 }) hlock
        refine ⟨s.currentIndex * 4096 % 2 ^ 64, t, ?_⟩
        rw [if_neg hused]
        dsimp only
        rw [pageframeLock, ht]
        rfl

private theorem Requested.unlock {s t : Pageframe} {page : Nat}
    (hreq : s.mutex.getLsbD PageframeMutexBit.request.toNat = false)
    (h : Requested
      { s with mutex := s.mutex ||| BitVec.twoPow 64 PageframeMutexBit.request.toNat } page t) :
    Requested s page (pageframeUnlock .request t) := by
  cases h with
  | exhausted hall =>
      have hunlock : pageframeUnlock .request
          { s with
            currentIndex := max s.currentIndex s.frames
            mutex := s.mutex ||| BitVec.twoPow 64 PageframeMutexBit.request.toNat } =
          { s with currentIndex := max s.currentIndex s.frames } := by
        simp only [pageframeUnlock, atomicUnlock_taken hreq]
      have hres : Requested s 0 { s with currentIndex := max s.currentIndex s.frames } :=
        .exhausted hall
      rw [← hunlock] at hres
      exact hres
  | found hle hr hfree hall hmarked =>
      exact .found hle hr hfree hall ⟨hmarked.size, hmarked.currentIndex,
        pageframeUnlock_mutex hreq hmarked.mutex, hmarked.inUse⟩

theorem pageframeRequest_requested {s t : Pageframe} {page : Nat} (hframes : s.frames < 2 ^ 52)
    (h : pageframeRequest s = some (page, t)) : Requested s page t := by
  cases hreq : s.mutex.getLsbD PageframeMutexBit.request.toNat
  · rw [pageframeRequest, pageframeSpinlock_free hreq] at h
    simp only [Option.bind_eq_bind, Option.bind_some, Option.pure_def, Option.bind_eq_some_iff,
      Option.some.injEq, Prod.exists, Prod.mk.injEq] at h
    obtain ⟨_, u, hscan, rfl, rfl⟩ := h
    exact (requestScan_sound _ (by exact hframes) rfl hscan).unlock hreq
  · rw [pageframeRequest, pageframeSpinlock_held hreq] at h
    simp at h

private theorem lock_free_of_request {s : Pageframe}
    (hlock : s.mutex.getLsbD PageframeMutexBit.lock.toNat = false) :
    (s.mutex ||| BitVec.twoPow 64 PageframeMutexBit.request.toNat).getLsbD
      PageframeMutexBit.lock.toNat = false := by
  rw [getLsbD_taken_ne (by decide), hlock]

theorem pageframeRequest_returns {s : Pageframe}
    (hreq : s.mutex.getLsbD PageframeMutexBit.request.toNat = false)
    (hlock : s.mutex.getLsbD PageframeMutexBit.lock.toNat = false) :
    ∃ page t, pageframeRequest s = some (page, t) := by
  let locked : Pageframe :=
    { s with mutex := s.mutex ||| BitVec.twoPow 64 PageframeMutexBit.request.toNat }
  obtain ⟨page, t, hscan⟩ := requestScan_returns (locked.frames - locked.currentIndex)
    (s := locked) (lock_free_of_request hlock)
  refine ⟨page, pageframeUnlock .request t, ?_⟩
  rw [pageframeRequest, pageframeSpinlock_free hreq]
  change (pageframeRequestScan (locked.frames - locked.currentIndex) locked).bind _ = _
  rw [hscan]
  rfl

/-- The first frame in use among the `pages` ones at `c` is `j` ahead, and the search goes on
right behind it. -/
def Skips (s : Pageframe) (pages c d : Nat) : Prop :=
  c < s.frames ∧ ∃ j < pages, s.inUse ((c + j) % 2 ^ 64) = true ∧
    (∀ i < j, s.inUse ((c + i) % 2 ^ 64) = false) ∧ d = (c + (j + 1)) % 2 ^ 64

/-- The positions a multi-page search passes through. -/
def Scans (s : Pageframe) (pages : Nat) : Nat → Nat → Prop :=
  Relation.ReflTransGen (Skips s pages)

/-- The `pages` frames at `c` all read as free. -/
def Clear (s : Pageframe) (pages c : Nat) : Prop :=
  ∀ j < pages, s.inUse ((c + j) % 2 ^ 64) = false

/-- The outcomes of `pageframe_request_pages`. -/
inductive RequestedPages (pages : Nat) (s : Pageframe) : Nat → Pageframe → Prop
  | exhausted {c : Nat} : Scans s pages s.currentIndex c → s.frames ≤ c →
      RequestedPages pages s 0 { s with currentIndex := c }
  | found {c : Nat} {t : Pageframe} : Scans s pages s.currentIndex c → c < s.frames →
      Clear s pages c →
      Marked (frameIndexes (c * 4096 % 2 ^ 64) pages)
        { s with currentIndex := (c + pages) % 2 ^ 64 } t →
      RequestedPages pages s (c * 4096 % 2 ^ 64) t

private theorem pageframeProbe_some {s : Pageframe} {pages j : Nat}
    (h : pageframeProbe s pages = some j) :
    j < pages ∧ s.inUse ((s.currentIndex + j) % 2 ^ 64) = true ∧
      ∀ i < j, s.inUse ((s.currentIndex + i) % 2 ^ 64) = false := by
  rw [pageframeProbe, List.find?_range_eq_some] at h
  refine ⟨List.mem_range.mp h.2.1, h.1, ?_⟩
  intro i hi
  simpa [Pageframe.inUse] using h.2.2 i hi

private theorem pageframeProbe_none {s : Pageframe} {pages : Nat}
    (h : pageframeProbe s pages = none) : Clear s pages s.currentIndex := by
  rw [pageframeProbe, List.find?_range_eq_none] at h
  intro j hj
  simpa [Pageframe.inUse] using h j hj

private theorem requestPagesScan_some {pages rounds page : Nat} {s t : Pageframe}
    (h : pageframeRequestPagesScan pages rounds s = some (page, t)) :
    ∃ c, Scans s pages s.currentIndex c ∧
      (s.frames ≤ c ∧ page = 0 ∧ t = { s with currentIndex := c } ∨
        c < s.frames ∧ Clear s pages c ∧ page = c * 4096 % 2 ^ 64 ∧
          pageframeLock page pages { s with currentIndex := (c + pages) % 2 ^ 64 } = some t) := by
  induction rounds generalizing s with
  | zero => simp [pageframeRequestPagesScan] at h
  | succ rounds ih =>
      rw [pageframeRequestPagesScan] at h
      by_cases hlt : s.currentIndex < s.frames
      · rw [if_pos hlt] at h
        cases hprobe : pageframeProbe s pages with
        | some j =>
            rw [hprobe] at h
            obtain ⟨hj, hused, hbefore⟩ := pageframeProbe_some hprobe
            obtain ⟨c, hscans, hend⟩ := ih h
            exact ⟨c, .head ⟨hlt, j, hj, hused, hbefore, rfl⟩ hscans, hend⟩
        | none =>
            rw [hprobe] at h
            simp only [Option.bind_eq_bind, Option.pure_def, Option.bind_eq_some_iff,
              Option.some.injEq, Prod.mk.injEq] at h
            obtain ⟨u, hu, rfl, rfl⟩ := h
            exact ⟨s.currentIndex, .refl, .inr ⟨hlt, pageframeProbe_none hprobe, rfl, hu⟩⟩
      · rw [if_neg hlt, Option.some.injEq, Prod.mk.injEq] at h
        obtain ⟨rfl, rfl⟩ := h
        exact ⟨s.currentIndex, .refl, .inl ⟨Nat.not_lt.mp hlt, rfl, rfl⟩⟩

theorem pageframeRequestPages_some {pages rounds page : Nat} {s t : Pageframe}
    (h : pageframeRequestPages rounds pages s = some (page, t)) :
    ∃ c, Scans s pages s.currentIndex c ∧
      (s.frames ≤ c ∧ page = 0 ∧ t = { s with currentIndex := c } ∨
        c < s.frames ∧ Clear s pages c ∧ page = c * 4096 % 2 ^ 64 ∧
          s.mutex.getLsbD PageframeMutexBit.request.toNat = false ∧
          ∃ u, pageframeLock page pages
            { s with
              currentIndex := (c + pages) % 2 ^ 64
              mutex := s.mutex ||| BitVec.twoPow 64 PageframeMutexBit.request.toNat } = some u ∧
            t = pageframeUnlock .request u) := by
  simp only [pageframeRequestPages, Option.bind_eq_bind, Option.pure_def, Option.bind_eq_some_iff,
    Option.some.injEq, Prod.exists, Prod.mk.injEq] at h
  obtain ⟨locked, hlocked, _, u, hscan, rfl, rfl⟩ := h
  obtain ⟨hreq, rfl⟩ := pageframeSpinlock_some hlocked
  obtain ⟨c, hscans, ⟨hend, rfl, rfl⟩ | ⟨hlt, hclear, rfl, hlock⟩⟩ := requestPagesScan_some hscan
  · refine ⟨c, hscans, .inl ⟨hend, rfl, ?_⟩⟩
    simp only [pageframeUnlock, atomicUnlock_taken hreq]
  · exact ⟨c, hscans, .inr ⟨hlt, hclear, rfl, hreq, u, hlock, rfl⟩⟩

theorem pageframeRequestPages_requested {rounds pages page : Nat} {s t : Pageframe}
    (h : pageframeRequestPages rounds pages s = some (page, t)) :
    RequestedPages pages s page t := by
  obtain ⟨c, hscans, ⟨hend, rfl, rfl⟩ | ⟨hlt, hclear, rfl, hreq, u, hlock, rfl⟩⟩ :=
    pageframeRequestPages_some h
  · exact .exhausted hscans hend
  · have hmarked := markFrames_marked hlock
    exact .found hscans hlt hclear ⟨hmarked.size, hmarked.currentIndex,
      pageframeUnlock_mutex hreq hmarked.mutex, hmarked.inUse⟩

private theorem requestPagesScan_skip {pages rounds j : Nat} {s : Pageframe}
    (hlt : s.currentIndex < s.frames) (hprobe : pageframeProbe s pages = some j) :
    pageframeRequestPagesScan pages (rounds + 1) s = pageframeRequestPagesScan pages rounds
      { s with currentIndex := (s.currentIndex + (j + 1)) % 2 ^ 64 } := by
  rw [pageframeRequestPagesScan, if_pos hlt, hprobe]

private theorem requestPagesScan_take {pages rounds : Nat} {s t : Pageframe}
    (hlt : s.currentIndex < s.frames) (hprobe : pageframeProbe s pages = none)
    (hlock : pageframeLock (s.currentIndex * 4096 % 2 ^ 64) pages
      { s with currentIndex := (s.currentIndex + pages) % 2 ^ 64 } = some t) :
    pageframeRequestPagesScan pages (rounds + 1) s =
      some (s.currentIndex * 4096 % 2 ^ 64, t) := by
  rw [pageframeRequestPagesScan, if_pos hlt, hprobe]
  dsimp only
  rw [hlock]
  rfl

private theorem requestPagesScan_complete {pages a c : Nat} {s : Pageframe}
    (hscans : Scans s pages a c) (hend : c < s.frames → Clear s pages c)
    (hlock : s.mutex.getLsbD PageframeMutexBit.lock.toNat = false) :
    ∃ rounds t, pageframeRequestPagesScan pages rounds { s with currentIndex := a } =
      some (if c < s.frames then c * 4096 % 2 ^ 64 else 0, t) := by
  -- Induction on the skips: each costs one round, and only moves the hint.
  induction hscans using Relation.ReflTransGen.head_induction_on with
  | refl =>
      by_cases hlt : c < s.frames
      · have hprobe : pageframeProbe { s with currentIndex := c } pages = none := by
          rw [pageframeProbe, List.find?_range_eq_none]
          intro j hj
          simpa [Pageframe.inUse] using hend hlt j hj
        obtain ⟨t, ht, -⟩ := markFrames_spec .used (c * 4096 % 2 ^ 64) pages
          (s := { s with currentIndex := (c + pages) % 2 ^ 64 }) hlock
        refine ⟨1, t, ?_⟩
        rw [if_pos hlt]
        exact requestPagesScan_take (s := { s with currentIndex := c }) hlt hprobe ht
      · refine ⟨1, { s with currentIndex := c }, ?_⟩
        rw [if_neg hlt]
        exact if_neg hlt
  | @head a d hskip _ ih =>
      obtain ⟨hlt, j, hj, hused, hbefore, rfl⟩ := hskip
      obtain ⟨rounds, t, ht⟩ := ih
      have hprobe : pageframeProbe { s with currentIndex := a } pages = some j := by
        rw [pageframeProbe, List.find?_range_eq_some]
        refine ⟨hused, List.mem_range.mpr hj, ?_⟩
        intro i hi
        simpa [Pageframe.inUse] using hbefore i hi
      refine ⟨rounds + 1, t, ?_⟩
      rw [← ht]
      exact requestPagesScan_skip (s := { s with currentIndex := a }) hlt hprobe

theorem pageframeRequestPages_returns {pages c : Nat} {s : Pageframe}
    (hscans : Scans s pages s.currentIndex c) (hend : c < s.frames → Clear s pages c)
    (hreq : s.mutex.getLsbD PageframeMutexBit.request.toNat = false)
    (hlock : s.mutex.getLsbD PageframeMutexBit.lock.toNat = false) :
    ∃ rounds t, pageframeRequestPages rounds pages s =
      some (if c < s.frames then c * 4096 % 2 ^ 64 else 0, t) := by
  let locked : Pageframe :=
    { s with mutex := s.mutex ||| BitVec.twoPow 64 PageframeMutexBit.request.toNat }
  obtain ⟨rounds, t, ht⟩ :=
    requestPagesScan_complete (s := locked) hscans hend (lock_free_of_request hlock)
  refine ⟨rounds, pageframeUnlock .request t, ?_⟩
  rw [pageframeRequestPages, pageframeSpinlock_free hreq]
  change (pageframeRequestPagesScan pages rounds locked).bind _ = _
  rw [ht]
  rfl

theorem le_of_scans {s : Pageframe} {pages a c : Nat} (hwrap : s.frames + pages ≤ 2 ^ 64)
    (h : Scans s pages a c) : a ≤ c := by
  induction h with
  | refl => exact le_rfl
  | tail _ hskip ih =>
      obtain ⟨hlt, j, hj, -, -, rfl⟩ := hskip
      rcases Nat.lt_or_ge (_ + (j + 1)) (2 ^ 64) with hsmall | hlarge
      · rw [Nat.mod_eq_of_lt hsmall]
        omega
      · omega

/-- While no probe can wrap around, every search comes to a stop. -/
theorem scans_stop (s : Pageframe) (pages a : Nat) (hwrap : s.frames + pages ≤ 2 ^ 64) :
    ∃ c, Scans s pages a c ∧ (c < s.frames → Clear s pages c) := by
  -- Each skip moves forward, so the distance to the end of the bitmap decreases.
  induction h : s.frames - a using Nat.strong_induction_on generalizing a with
  | _ n ih =>
      by_cases hlt : a < s.frames
      · by_cases hclear : Clear s pages a
        · exact ⟨a, .refl, fun _ => hclear⟩
        · have hex : ∃ j, j < pages ∧ s.inUse ((a + j) % 2 ^ 64) = true := by
            simpa [Clear] using hclear
          classical
          let j := Nat.find hex
          obtain ⟨hj, hused⟩ := Nat.find_spec hex
          have hbefore : ∀ i < j, s.inUse ((a + i) % 2 ^ 64) = false := by
            intro i hi
            have hmin := Nat.find_min hex hi
            have hip : i < pages := hi.trans hj
            simpa [hip] using hmin
          have hnext : (a + (j + 1)) % 2 ^ 64 = a + (j + 1) := Nat.mod_eq_of_lt (by omega)
          obtain ⟨c, hscans, hend⟩ := ih (s.frames - (a + (j + 1))) (by omega) _ rfl
          exact ⟨c, .head ⟨hlt, j, hj, hused, hbefore, hnext.symm⟩ hscans, hend⟩
      · exact ⟨a, .refl, fun h => absurd h hlt⟩

end VisualOS.Kernel
