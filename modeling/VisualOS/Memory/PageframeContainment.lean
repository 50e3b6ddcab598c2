import VisualOS.Memory.PageframeAvailability

/-!
# Blocks at the end of tracked memory

Indices past the bitmap read as free, so a multi-page search near the end can settle on a
block of which only the first frames are tracked.
-/

namespace VisualOS.Kernel

/-- A block that `pageframe_request_pages` hands out lies in tracked memory, was free and is
in use afterwards. -/
def BlockInside (s : Pageframe) (pages : Nat) : Prop :=
  ∀ rounds page t, pageframeRequestPages rounds pages s = some (page, t) → page ≠ 0 →
    page / 4096 + pages ≤ 8 * s.pageframemap.size ∧
    (∀ j < pages, s.inUse (page / 4096 + j) = false) ∧
    ∀ j < pages, t.inUse (page / 4096 + j) = true

/-- From the hint on no run inside the bitmap is long enough, but some run that goes past its
end reads as free.  (A search from 0 that takes frame 0 answers `NULL` instead.) -/
def RunsOver (s : Pageframe) (pages : Nat) : Prop :=
  s.currentIndex < s.frames ∧
    (¬∃ r, s.currentIndex ≤ r ∧ r + pages ≤ s.frames ∧ ∀ j < pages, s.inUse (r + j) = false) ∧
    (∃ r < s.frames, s.frames < r + pages ∧ Clear s pages r) ∧
    ¬(s.currentIndex = 0 ∧ Clear s pages 0)

/-- The same with the search from 0 that takes frame 0. -/
def Overhangs (s : Pageframe) (pages : Nat) : Prop :=
  s.currentIndex < s.frames ∧
    (¬∃ r, s.currentIndex ≤ r ∧ r + pages ≤ s.frames ∧ ∀ j < pages, s.inUse (r + j) = false) ∧
    ∃ r < s.frames, s.frames < r + pages ∧ Clear s pages r

private theorem exists_first_used {s : Pageframe} {pages a : Nat} (h : ¬Clear s pages a) :
    ∃ j < pages, s.inUse ((a + j) % 2 ^ 64) = true ∧
      ∀ i < j, s.inUse ((a + i) % 2 ^ 64) = false := by
  have hex : ∃ j, j < pages ∧ s.inUse ((a + j) % 2 ^ 64) = true := by
    simpa [Clear] using h
  classical
  obtain ⟨hj, hused⟩ := Nat.find_spec hex
  refine ⟨Nat.find hex, hj, hused, ?_⟩
  intro i hi
  have hmin := Nat.find_min hex hi
  simpa [hi.trans hj] using hmin

private theorem scans_to_first {s : Pageframe} {pages a r : Nat} (hquiet : Quiet s)
    (hr : r < s.frames) (hclear : Clear s pages r)
    (hfirst : ∀ i, a ≤ i → i < r → ¬Clear s pages i) (ha : a ≤ r) : Scans s pages a r := by
  have hframes := hquiet.frames_lt
  induction h : r - a using Nat.strong_induction_on generalizing a with
  | _ n ih =>
      rcases Nat.eq_or_lt_of_le ha with rfl | hlt
      · exact .refl
      · obtain ⟨j, hj, hused, hbefore⟩ := exists_first_used (hfirst a le_rfl hlt)
        have hjr : a + j < r := by
          by_contra hge
          have hfree := hclear (a + j - r) (by omega)
          rw [show r + (a + j - r) = a + j by omega, hused] at hfree
          exact Bool.noConfusion hfree
        have hnext : (a + (j + 1)) % 2 ^ 64 = a + (j + 1) := Nat.mod_eq_of_lt (by omega)
        refine .head ⟨by omega, j, hj, hused, hbefore, hnext.symm⟩ ?_
        exact ih (r - (a + (j + 1))) (by omega)
          (fun i hi hir => hfirst i (by omega) hir) (by omega) rfl

private theorem exists_first_clear {s : Pageframe} {pages a r : Nat} (ha : a ≤ r)
    (hclear : Clear s pages r) :
    ∃ r', a ≤ r' ∧ r' ≤ r ∧ Clear s pages r' ∧ ∀ i, a ≤ i → i < r' → ¬Clear s pages i := by
  have hex : ∃ r', a ≤ r' ∧ Clear s pages r' := ⟨r, ha, hclear⟩
  classical
  obtain ⟨hle, hc⟩ := Nat.find_spec hex
  refine ⟨Nat.find hex, hle, Nat.find_min' hex ⟨ha, hclear⟩, hc, ?_⟩
  intro i hi hlt hci
  exact Nat.find_min hex hlt ⟨hi, hci⟩

/-- When only positions below the hint are left, the probe from the hint finds nothing in use
up to the end of the index space, wraps around, and the search starts over at the front. -/
private theorem scans_wrapped {s : Pageframe} {pages r : Nat} (hquiet : Quiet s)
    (hcur : s.currentIndex < s.frames) (hr : r < s.currentIndex)
    (hover : s.frames < r + pages) (hpages : pages < 2 ^ 64) (hclear : Clear s pages r)
    (hnone : ¬Clear s pages s.currentIndex) :
    ∃ d, 0 < d ∧ d ≤ r ∧ Scans s pages s.currentIndex d ∧ s.frames < pages := by
  have hframes := hquiet.frames_lt
  obtain ⟨j, hj, hused, hbefore⟩ := exists_first_used hnone
  have hpast : r + pages ≤ s.currentIndex + j := by
    by_contra hlt
    have hfree := hclear (s.currentIndex + j - r) (by omega)
    rw [show r + (s.currentIndex + j - r) = s.currentIndex + j by omega, hused] at hfree
    exact Bool.noConfusion hfree
  have hwrap : 2 ^ 64 ≤ s.currentIndex + j := by
    by_contra hlt
    rw [Nat.mod_eq_of_lt (by omega), inUse_out_of_range (by omega)] at hused
    exact Bool.noConfusion hused
  have hindex : (s.currentIndex + j) % 2 ^ 64 = s.currentIndex + j - 2 ^ 64 := by omega
  have hnext : (s.currentIndex + (j + 1)) % 2 ^ 64 = s.currentIndex + j - 2 ^ 64 + 1 := by omega
  refine ⟨s.currentIndex + j - 2 ^ 64 + 1, by omega, ?_, ?_, by omega⟩
  · by_contra hlt
    have hfree := hclear (s.currentIndex + j - 2 ^ 64 - r) (by omega)
    rw [show r + (s.currentIndex + j - 2 ^ 64 - r) = s.currentIndex + j - 2 ^ 64 by omega,
      Nat.mod_eq_of_lt (by omega), ← hindex, hused] at hfree
    exact Bool.noConfusion hfree
  · exact .single ⟨hcur, j, hj, hused, hbefore, hnext.symm⟩

theorem RunsOver.scans {s : Pageframe} {pages : Nat} (hquiet : Quiet s)
    (hpages : pages < 2 ^ 64) (h : RunsOver s pages) :
    ∃ c, Scans s pages s.currentIndex c ∧ c < s.frames ∧ Clear s pages c ∧
      s.frames < c + pages ∧ c ≠ 0 := by
  have hframes := hquiet.frames_lt
  obtain ⟨hcur, hinside, ⟨r, hr, hover, hclear⟩, hzero⟩ := h
  by_cases hahead : ∃ q, s.currentIndex ≤ q ∧ q < s.frames ∧ Clear s pages q
  · obtain ⟨q, hq, hqf, hqc⟩ := hahead
    obtain ⟨c, hc, hcq, hcc, hfirst⟩ := exists_first_clear hq hqc
    refine ⟨c, scans_to_first hquiet (by omega) hcc hfirst hc, by omega, hcc, ?_, ?_⟩
    · by_contra hle
      refine hinside ⟨c, hc, by omega, ?_⟩
      intro j hj
      have := hcc j hj
      rwa [Nat.mod_eq_of_lt (by omega)] at this
    · rintro rfl
      exact hzero ⟨by omega, hcc⟩
  · have hrcur : r < s.currentIndex := by
      by_contra hge
      exact hahead ⟨r, by omega, hr, hclear⟩
    have hnone : ¬Clear s pages s.currentIndex := fun hc => hahead ⟨_, le_rfl, hcur, hc⟩
    obtain ⟨d, hd, hdr, hscans, hbig⟩ :=
      scans_wrapped hquiet hcur hrcur hover hpages hclear hnone
    obtain ⟨c, hc, hcr, hcc, hfirst⟩ := exists_first_clear hdr hclear
    refine ⟨c, hscans.trans (scans_to_first hquiet (by omega) hcc hfirst hc), by omega, hcc,
      by omega, by omega⟩

theorem RunsOver.not_inside {s : Pageframe} {pages : Nat} (hquiet : Quiet s)
    (hpages : pages < 2 ^ 64) (h : RunsOver s pages) : ¬BlockInside s pages := by
  have hframes := hquiet.frames_lt
  obtain ⟨c, hscans, hlt, hclear, hover, hc⟩ := h.scans hquiet hpages
  obtain ⟨rounds, t, ht⟩ := pageframeRequestPages_returns hscans (fun _ => hclear)
    (hquiet.bit_free .request) (hquiet.bit_free .lock)
  rw [if_pos hlt, Nat.mod_eq_of_lt (by omega)] at ht
  intro hinside
  have hbound := (hinside rounds _ t ht (by omega)).1
  rw [Nat.mul_div_cancel c (by decide), ← hquiet.frames_eq] at hbound
  omega

private theorem scans_stuck {s : Pageframe} {pages a c : Nat}
    (h : a < s.frames → Clear s pages a) (hscans : Scans s pages a c) : c = a := by
  rcases Relation.ReflTransGen.cases_head hscans with rfl | ⟨d, hskip, -⟩
  · rfl
  · obtain ⟨hlt, j, hj, hused, -, -⟩ := hskip
    rw [h hlt j hj] at hused
    exact Bool.noConfusion hused

theorem Overhangs.of_scans {s : Pageframe} {pages c : Nat} (hframes : s.frames < 2 ^ 52)
    (hscans : Scans s pages s.currentIndex c) (hlt : c < s.frames) (hclear : Clear s pages c)
    (hover : s.frames < c + pages) : Overhangs s pages := by
  refine ⟨?_, ?_, c, hlt, hover, hclear⟩
  · by_contra hge
    have := scans_stuck (fun hlt' => absurd hlt' hge) hscans
    omega
  · rintro ⟨r, hr, hrun, hfree⟩
    have := scans_le hframes hrun hfree hr hscans
    omega

theorem inside_of_not_runsOver {s : Pageframe} {pages : Nat} (hquiet : Quiet s)
    (h : ¬RunsOver s pages) : BlockInside s pages := by
  have hframes := hquiet.frames_lt
  intro rounds page t ht hpage
  cases pageframeRequestPages_requested ht with
  | exhausted _ _ => exact absurd rfl hpage
  | @found c t hscans hlt hclear hmarked =>
      have hmul : c * 4096 % 2 ^ 64 = c * 4096 := Nat.mod_eq_of_lt (by omega)
      rw [hmul] at hpage hmarked ⊢
      have hdiv : c * 4096 / 4096 = c := Nat.mul_div_cancel c (by decide)
      have hfit : c + pages ≤ s.frames := by
        by_contra hover
        obtain ⟨hcur, hnone, hrun⟩ := Overhangs.of_scans hframes hscans hlt hclear (by omega)
        refine h ⟨hcur, hnone, hrun, ?_⟩
        rintro ⟨hzero, hfront⟩
        rw [hzero] at hscans
        have := scans_stuck (fun _ => hfront) hscans
        omega
      rw [hdiv, ← hquiet.frames_eq]
      refine ⟨hfit, ?_, ?_⟩
      · intro j hj
        have := hclear j hj
        rwa [Nat.mod_eq_of_lt (by omega)] at this
      · intro j hj
        have hmem : c + j ∈ frameIndexes (c * 4096) pages := by
          rw [mem_frameIndexes (by omega), hdiv]
          omega
        have hle : c + j ≤ s.frames := by omega
        rw [hmarked.inUse, Pageframe.frames_hint]
        simp [hmem, hle]

/-- In every state after boot and for every page count, what `pageframe_request_pages` hands
out lies inside tracked memory exactly when the search cannot run over its end. -/
theorem pageframe_block_inside_iff {s : Pageframe} {pages : Nat} (h : PageframeReachable s)
    (hpages : pages < 2 ^ 64) : BlockInside s pages ↔ ¬RunsOver s pages :=
  ⟨fun hinside hover => hover.not_inside h.quiet hpages hinside,
    inside_of_not_runsOver h.quiet⟩

/-- After boot with two free frames behind a kernel image of four. -/
theorem pageframe_block_inside_iff_small : ∃ s,
    pageframeInit (fun _ => 0) (smallSymbols 4) smallMap = some s ∧ BlockInside s 2 := by
  obtain ⟨s, hinit, hquiet, hframes, hcur, hused⟩ := smallBoot 4 (by decide)
  refine ⟨s, hinit, (pageframe_block_inside_iff ⟨_, _, _, s, [], hinit, .nil s⟩ (by decide)).mpr ?_⟩
  intro hover
  refine hover.2.1 ⟨262, by omega, by omega, ?_⟩
  intro j hj
  rw [← Bool.not_eq_true, hused _ (by omega)]
  omega

/-- With only the very last frame and a lone one free, a request for two pages hands out the
last frame together with one that does not exist. -/
theorem pageframe_block_outside : ∃ s,
    PageframeReachable s ∧ ¬BlockInside s 2 := by
  obtain ⟨s, hinit, hquiet, hframes, hcur, hused⟩ := smallBoot 5 (by decide)
  refine ⟨s, ⟨_, _, _, s, [], hinit, .nil s⟩, RunsOver.not_inside hquiet (by decide) ?_⟩
  have hfree : ∀ i ≤ 264, s.inUse i = false ↔ ¬(i < 257 ∨ 258 ≤ i ∧ i < 258 + 5) := by
    intro i hi
    rw [← hused i hi, Bool.not_eq_true]
  refine ⟨by omega, ?_, ⟨263, by omega, by omega, ?_⟩, ?_⟩
  · rintro ⟨r, -, hr, hrun⟩
    have h₀ := (hfree _ (by omega)).mp (hrun 0 (by decide))
    have h₁ := (hfree _ (by omega)).mp (hrun 1 (by decide))
    omega
  · intro j hj
    rw [Nat.mod_eq_of_lt (by omega), hfree _ (by omega)]
    omega
  · rintro ⟨-, hzero⟩
    have := (hfree _ (by decide)).mp (hzero 0 (by decide))
    omega

end VisualOS.Kernel
