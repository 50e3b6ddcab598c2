import VisualOS.Memory.PageframeInit

/-!
# When a request may answer `NULL`

The hint `s_current_index` is sound when no frame below it is free.  Single requests, frees
and the range operations keep it sound; a multi-page search does so only if it never skips
over a free frame, that is, if the first free frame from the hint on starts a run that is
long enough.  A search that skips one loses it until something below it is freed again.
-/

namespace VisualOS.Kernel

open Framework

/-- Some `pages` consecutive tracked frames are free. -/
def HasRun (s : Pageframe) (pages : Nat) : Prop :=
  ∃ r, r + pages ≤ s.frames ∧ ∀ j < pages, s.inUse (r + j) = false

/-- No false out-of-memory: a request that the bitmap could satisfy returns, and not `NULL`. -/
def Available (s : Pageframe) : Prop :=
  (∀ pages, 1 ≤ pages → HasRun s pages →
    (∃ rounds page t, pageframeRequestPages rounds pages s = some (page, t)) ∧
    ∀ rounds page t, pageframeRequestPages rounds pages s = some (page, t) → page ≠ 0) ∧
  ((∃ i < s.frames, s.inUse i = false) →
    (∃ page t, pageframeRequest s = some (page, t)) ∧
    ∀ page t, pageframeRequest s = some (page, t) → page ≠ 0)

/-- The first free frame from the hint on, if there is one, starts `pages` free ones. -/
def FirstFits (s : Pageframe) (pages : Nat) : Prop :=
  ∀ r, s.currentIndex ≤ r → r < s.frames → s.inUse r = false →
    (∀ i, s.currentIndex ≤ i → i < r → s.inUse i = true) → Clear s pages r

/-- The condition on a call and the state before it: a multi-page search does not pass over
a free frame, and frame 0, whose address is `NULL`, is not freed. -/
def SkipsNoFrame (s : Pageframe) : PageframeAction → Prop
  | .requestPages pages => FirstFits s pages
  | .free physicalAddress pages => 0 ∉ frameIndexes physicalAddress pages
  | .unreserve physicalAddress pages => 0 ∉ frameIndexes physicalAddress pages
  | _ => True

structure HintSound (s : Pageframe) : Prop where
  quiet : Quiet s
  zero : s.inUse 0 = true
  below : ∀ i < s.frames, s.inUse i = false → s.currentIndex ≤ i

theorem scans_le {s : Pageframe} {pages r a c : Nat} (hframes : s.frames < 2 ^ 52)
    (hrun : r + pages ≤ s.frames) (hfree : ∀ j < pages, s.inUse (r + j) = false)
    (ha : a ≤ r) (h : Scans s pages a c) : c ≤ r := by
  induction h with
  | refl => exact ha
  | @tail b c _ hskip ih =>
      obtain ⟨-, j, hj, hused, -, rfl⟩ := hskip
      rw [Nat.mod_eq_of_lt (by omega)] at hused ⊢
      by_contra hpast
      -- The frame that stops the probe would lie inside the run.
      have hinside := hfree (b + j - r) (by omega)
      rw [show r + (b + j - r) = b + j by omega, hused] at hinside
      exact Bool.noConfusion hinside

private theorem FirstFits.scans {s : Pageframe} {pages c : Nat} (hquiet : Quiet s)
    (hfits : FirstFits s pages) (h : Scans s pages s.currentIndex c) :
    s.currentIndex ≤ c ∧ ∀ i, s.currentIndex ≤ i → i < c → i < s.frames → s.inUse i = true := by
  have hframes := hquiet.frames_lt
  induction h with
  | refl => exact ⟨le_rfl, fun i hi hi' _ => by omega⟩
  | @tail b c _ hskip ih =>
      obtain ⟨hb, hpassed⟩ := ih
      obtain ⟨hlt, j, hj, hused, hbefore, rfl⟩ := hskip
      have hbmod : (b + 0) % 2 ^ 64 = b := Nat.mod_eq_of_lt (by omega)
      have hbused : s.inUse b = true := by
        by_contra hfree
        have hclear := hfits b hb hlt (by simpa using hfree)
          (fun i hi hib => hpassed i hi hib (by omega))
        rw [hclear j hj] at hused
        exact Bool.noConfusion hused
      have hj0 : j = 0 := by
        by_contra hj0
        have := hbefore 0 (by omega)
        rw [hbmod, hbused] at this
        exact Bool.noConfusion this
      subst j
      rw [Nat.mod_eq_of_lt (by omega)]
      refine ⟨by omega, ?_⟩
      intro i hi hib hif
      rcases Nat.lt_or_ge i b with hlt' | hge
      · exact hpassed i hi hlt' hif
      · rw [show i = b by omega]
        exact hbused

namespace HintSound

variable {s t : Pageframe}

private theorem marked {indexes : List Nat} (h : HintSound s) (hm : Marked indexes s t) :
    HintSound t := by
  refine ⟨h.quiet.marked hm, by rw [hm.inUse, h.zero, Bool.true_or], ?_⟩
  intro i hi hfree
  rw [hm.frames] at hi
  rw [hm.inUse, Bool.or_eq_false_iff] at hfree
  rw [hm.currentIndex]
  exact h.below i hi hfree.1

private theorem released {indexes : List Nat} (h : HintSound s) (hzero : 0 ∉ indexes)
    (hr : Released indexes s t) : HintSound t := by
  refine ⟨h.quiet.released hr, by simp [hr.inUse, h.zero, hzero], ?_⟩
  intro i hi hfree
  rw [hr.frames] at hi
  by_cases hmem : i ∈ indexes
  · exact hr.hint_le_mem hmem
  · rw [hr.inUse] at hfree
    exact hr.hint_le.trans (h.below i hi (by simpa [hmem] using hfree))

private theorem requested {page : Nat} (h : HintSound s) (hr : Requested s page t) :
    HintSound t := by
  have hquiet := h.quiet.requested hr
  cases hr with
  | exhausted hall =>
      refine ⟨hquiet, h.zero, ?_⟩
      intro i hi hfree
      rw [Pageframe.inUse_hint, hall i (h.below i hi hfree) hi] at hfree
      exact Bool.noConfusion hfree
  | @found r t hle hlt hfree hall hm =>
      refine ⟨hquiet, by rw [hm.inUse, Pageframe.inUse_hint, h.zero, Bool.true_or], ?_⟩
      intro i hi hfree'
      rw [hm.frames, Pageframe.frames_hint] at hi
      rw [hm.inUse, Pageframe.inUse_hint, Pageframe.frames_hint, Bool.or_eq_false_iff] at hfree'
      have hne : i ≠ r := by
        rintro rfl
        simp [hi.le] at hfree'
      rw [hm.currentIndex]
      by_contra hnot
      rw [hall i (h.below i hi hfree'.1) (by simp only at hnot; omega)] at hfree'
      exact Bool.noConfusion hfree'.1

private theorem requestedPages {pages page : Nat} (h : HintSound s) (hfits : FirstFits s pages)
    (hr : RequestedPages pages s page t) : HintSound t := by
  have hquiet := h.quiet.requestedPages hr
  have hframes := h.quiet.frames_lt
  cases hr with
  | exhausted hscans hend =>
      refine ⟨hquiet, h.zero, ?_⟩
      intro i hi hfree
      have hused := (hfits.scans h.quiet hscans).2 i (h.below i hi hfree)
        (Nat.lt_of_lt_of_le hi hend) hi
      rw [Pageframe.inUse_hint, hused] at hfree
      exact Bool.noConfusion hfree
  | @found c t hscans hlt hclear hm =>
      refine ⟨hquiet, by rw [hm.inUse, Pageframe.inUse_hint, h.zero, Bool.true_or], ?_⟩
      intro i hi hfree
      rw [hm.frames, Pageframe.frames_hint] at hi
      rw [hm.inUse, Pageframe.inUse_hint, Pageframe.frames_hint, Bool.or_eq_false_iff] at hfree
      have hci : c ≤ i := by
        by_contra hnot
        have hused := (hfits.scans h.quiet hscans).2 i (h.below i hi hfree.1) (by omega) hi
        rw [hused] at hfree
        exact Bool.noConfusion hfree.1
      rw [hm.currentIndex]
      change (c + pages) % 2 ^ 64 ≤ i
      have hpage : c * 4096 % 2 ^ 64 = c * 4096 := Nat.mod_eq_of_lt (by omega)
      rcases Nat.lt_trichotomy (c + pages) (2 ^ 64) with hword | hword | hword
      · rw [Nat.mod_eq_of_lt hword]
        have hdiv : c * 4096 / 4096 = c := Nat.mul_div_cancel c (by decide)
        have hout : i ∉ frameIndexes (c * 4096) pages := by
          intro hmem
          rw [hpage] at hfree
          simp [hmem, hi.le] at hfree
        rw [mem_frameIndexes (by omega), hdiv] at hout
        omega
      · rw [hword, Nat.mod_self]
        exact Nat.zero_le i
      · -- The probe would have wrapped around to frame 0.
        have hwrap := hclear (2 ^ 64 - c) (by omega)
        rw [show c + (2 ^ 64 - c) = 2 ^ 64 by omega, Nat.mod_self, h.zero] at hwrap
        exact Bool.noConfusion hwrap

private theorem step {a : PageframeAction} (h : HintSound s)
    (hstep : Guarded PageframeStep SkipsNoFrame s a t) : HintSound t := by
  obtain ⟨hok, hstep⟩ := hstep
  cases hstep with
  | request hr => exact h.requested (pageframeRequest_requested h.quiet.frames_lt hr)
  | requestPages hr => exact h.requestedPages hok (pageframeRequestPages_requested hr)
  | free hr => exact h.released hok (releaseFrames_released hr)
  | lock hm => exact h.marked (markFrames_marked hm)
  | reserve hm => exact h.marked (markFrames_marked hm)
  | unreserve hr => exact h.released hok (releaseFrames_released hr)

private theorem booted {memory : Nat → BitVec 8} {symbols : LinkerSymbols}
    {memorymap : List MemoryMapEntry} (h : pageframeInit memory symbols memorymap = some s) :
    HintSound s := by
  obtain ⟨largest, -, hbooted⟩ := pageframeInit_booted h
  exact ⟨hbooted.quiet, hbooted.frame_zero,
    fun i _ _ => by rw [hbooted.currentIndex]; exact Nat.zero_le i⟩

private theorem available (h : HintSound s) : Available s := by
  have hframes := h.quiet.frames_lt
  have hnonzero : ∀ c, s.inUse c = false → c ≠ 0 := by
    rintro c hfree rfl
    rw [h.zero] at hfree
    exact Bool.noConfusion hfree
  refine ⟨?_, ?_⟩
  · rintro pages hpos ⟨r, hrun, hfree⟩
    have hcur := h.below r (by omega) (by simpa using hfree 0 hpos)
    refine ⟨?_, ?_⟩
    · obtain ⟨c, hscans, hend⟩ := scans_stop s pages s.currentIndex (by omega)
      obtain ⟨rounds, t, ht⟩ := pageframeRequestPages_returns hscans hend
        (h.quiet.bit_free .request) (h.quiet.bit_free .lock)
      exact ⟨rounds, _, t, ht⟩
    · intro rounds page t ht
      cases pageframeRequestPages_requested ht with
      | exhausted hscans hend =>
          have := scans_le h.quiet.frames_lt hrun hfree hcur hscans
          omega
      | @found c t hscans hlt hclear _ =>
          have hc : s.inUse c = false := by
            have := hclear 0 hpos
            rwa [Nat.add_zero, Nat.mod_eq_of_lt (by omega)] at this
          have := hnonzero c hc
          rw [Nat.mod_eq_of_lt (by omega)]
          omega
  · rintro ⟨i, hi, hfree⟩
    refine ⟨pageframeRequest_returns (h.quiet.bit_free .request) (h.quiet.bit_free .lock), ?_⟩
    intro page t ht
    cases pageframeRequest_requested hframes ht with
    | exhausted hall =>
        rw [hall i (h.below i hi hfree) hi] at hfree
        exact Bool.noConfusion hfree
    | @found r t _ _ hr _ _ =>
        have := hnonzero r hr
        omega

end HintSound

/-- In a run after boot whose multi-page searches pass over no free frame and in which frame
0 is not freed, no request answers `NULL` while the bitmap could satisfy it. -/
theorem pageframe_no_false_exhaustion {memory : Nat → BitVec 8} {symbols : LinkerSymbols}
    {memorymap : List MemoryMapEntry} {s₀ s : Pageframe} {actions : List PageframeAction}
    (hinit : pageframeInit memory symbols memorymap = some s₀)
    (hrun : Run (Guarded PageframeStep SkipsNoFrame) s₀ actions s) : Available s :=
  (hrun.invariant (fun _ _ _ h hstep => h.step hstep) (HintSound.booted hinit)).available

/-- With no kernel image in the way the first free frame starts seven free ones. -/
theorem pageframe_no_false_exhaustion_small : ∃ s₀ s,
    pageframeInit (fun _ => 0) (smallSymbols 0) smallMap = some s₀ ∧
      Run (Guarded PageframeStep SkipsNoFrame) s₀ [.requestPages 2, .request] s ∧
      Available s := by
  obtain ⟨s₀, hinit, hquiet, hframes, hcur, hused⟩ := smallBoot 0 (by decide)
  have hfits : SkipsNoFrame s₀ (.requestPages 2) := by
    intro r _ hr hfree hall j hj
    have hr257 : ¬r < 257 := by
      intro hlt
      rw [(hused r (by omega)).mpr (.inl hlt)] at hfree
      exact Bool.noConfusion hfree
    have hr257' : ¬257 < r := by
      intro hlt
      have := (hused 257 (by omega)).mp (hall 257 (by omega) hlt)
      omega
    rw [Nat.mod_eq_of_lt (by omega), ← Bool.not_eq_true, hused _ (by omega)]
    omega
  obtain ⟨c, hscans, hend⟩ := scans_stop s₀ 2 s₀.currentIndex (by omega)
  obtain ⟨rounds, t, ht⟩ := pageframeRequestPages_returns hscans hend
    (hquiet.bit_free .request) (hquiet.bit_free .lock)
  have htquiet := hquiet.requestedPages (pageframeRequestPages_requested ht)
  obtain ⟨page, s, hs⟩ := pageframeRequest_returns (htquiet.bit_free .request)
    (htquiet.bit_free .lock)
  have hrun : Run (Guarded PageframeStep SkipsNoFrame) s₀ [.requestPages 2, .request] s :=
    .cons ⟨hfits, .requestPages ht⟩ (.cons ⟨trivial, .request hs⟩ (.nil s))
  exact ⟨s₀, s, hinit, hrun, pageframe_no_false_exhaustion hinit hrun⟩

/-- The kernel image leaves frame 257 free between two taken ones.  A request for two pages
fails and takes the hint past it; the next single request then answers `NULL`. -/
theorem pageframe_false_exhaustion : ∃ s₀ s,
    pageframeInit (fun _ => 0) (smallSymbols 6) smallMap = some s₀ ∧
      Run PageframeStep s₀ [.requestPages 2] s ∧ ¬Available s := by
  obtain ⟨s₀, hinit, hquiet, hframes, hcur, hused⟩ := smallBoot 6 (by decide)
  obtain ⟨c, hscans, hend⟩ := scans_stop s₀ 2 s₀.currentIndex (by omega)
  obtain ⟨rounds, t, ht⟩ := pageframeRequestPages_returns hscans hend
    (hquiet.bit_free .request) (hquiet.bit_free .lock)
  generalize (if c < s₀.frames then c * 4096 % 2 ^ 64 else 0) = page at ht
  refine ⟨s₀, t, hinit, .cons (.requestPages ht) (.nil t), ?_⟩
  intro havailable
  have hreq := pageframeRequestPages_requested ht
  have hquiet' := hquiet.requestedPages hreq
  cases hreq with
  | exhausted _ hend' =>
      have hfree : s₀.inUse 257 = false := by
        rw [← Bool.not_eq_true, hused 257 (by omega)]
        decide
      obtain ⟨⟨page, u, hu⟩, hnonnull⟩ := havailable.2 ⟨257, by rw [Pageframe.frames_hint]; omega,
        hfree⟩
      cases pageframeRequest_requested hquiet'.frames_lt hu with
      | exhausted _ => exact hnonnull 0 _ hu rfl
      | found hle hlt _ _ _ =>
          rw [Pageframe.frames_hint] at hlt
          simp only at hle
          omega
  | found _ hlt hclear _ =>
      have h₀ := hclear 0 (by decide)
      have h₁ := hclear 1 (by decide)
      rw [Nat.mod_eq_of_lt (by omega), ← Bool.not_eq_true, hused _ (by omega)] at h₀ h₁
      omega

end VisualOS.Kernel
