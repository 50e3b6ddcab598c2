import Mathlib.Order.Bounds.Basic
import VisualOS.Memory.PageframeAvailability
import VisualOS.Memory.PageframeOwnership

/-!
# Single frames are handed out first-fit

While multi-page requests stay away, no frame below the hint is free: a request moves the hint over
frames in use only, and a release moves it down to what it releases.  So the frame that a request
finds from the hint on is the lowest free one of all.
-/

namespace VisualOS.Kernel

open Framework

/-- All indices below the hint are in use, and so is frame 0, whose address is `NULL`. -/
structure HintFull (s : Pageframe) : Prop where
  quiet : Quiet s
  zero : s.inUse 0 = true
  below : ∀ i < s.currentIndex, s.inUse i = true

/-- The tracked frames that are free. -/
def freeFrames (s : Pageframe) : Set Nat := { i | i < s.frames ∧ s.inUse i = false }

/-- A request returns the lowest free frame and marks it and no other, or `NULL` if there is none. -/
def ServesLowest (s : Pageframe) : Prop :=
  ∃ page t, pageframeRequest s = some (page, t) ∧
    (page = 0 ↔ freeFrames s = ∅) ∧
    (freeFrames s = ∅ → ∀ i, t.inUse i = s.inUse i) ∧
    ∀ r, IsLeast (freeFrames s) r →
      page = 4096 * r ∧ ∀ i, t.inUse i = (s.inUse i || decide (i = r))

/-- The calls for single frames and for ranges; what is released does not include frame 0. -/
def SingleFrames (_ : Pageframe) : PageframeAction → Prop
  | .requestPages _ => False
  | .free physicalAddress pages => 0 ∉ frameIndexes physicalAddress pages
  | .unreserve physicalAddress pages => 0 ∉ frameIndexes physicalAddress pages
  | _ => True

namespace HintFull

variable {s t : Pageframe} {indexes : List Nat} {page r : Nat}

private theorem marked (h : HintFull s) (hm : Marked indexes s t) : HintFull t := by
  refine ⟨h.quiet.marked hm, by rw [hm.inUse, h.zero, Bool.true_or], ?_⟩
  intro i hi
  rw [hm.currentIndex] at hi
  rw [hm.inUse, h.below i hi, Bool.true_or]

private theorem released (h : HintFull s) (hzero : 0 ∉ indexes) (hr : Released indexes s t) :
    HintFull t := by
  refine ⟨h.quiet.released hr, by simp [hr.inUse, h.zero, hzero], ?_⟩
  intro i hi
  have hout : i ∉ indexes := fun hmem => absurd (hr.hint_le_mem hmem) (Nat.not_le.mpr hi)
  rw [hr.inUse, h.below i (hi.trans_le hr.hint_le)]
  simp [hout]

private theorem requested (h : HintFull s) (hr : Requested s page t) : HintFull t := by
  have hquiet := h.quiet.requested hr
  cases hr with
  | exhausted hall =>
      refine ⟨hquiet, h.zero, ?_⟩
      intro i hi
      rcases Nat.lt_or_ge i s.currentIndex with hlt | hge
      · exact h.below i hlt
      · exact hall i hge (by simp only at hi; omega)
  | @found r t hle hlt hfree hall hm =>
      refine ⟨hquiet, by rw [hm.inUse, Pageframe.inUse_hint, h.zero, Bool.true_or], ?_⟩
      intro i hi
      rw [hm.currentIndex] at hi
      rw [hm.inUse, Pageframe.inUse_hint, Pageframe.frames_hint]
      rcases Nat.lt_or_ge i s.currentIndex with hbelow | hge
      · rw [h.below i hbelow, Bool.true_or]
      · rcases Nat.lt_succ_iff_lt_or_eq.mp hi with hpassed | rfl
        · rw [hall i hge hpassed, Bool.true_or]
        · simp [hlt.le]

private theorem step {a : PageframeAction} (h : HintFull s)
    (hstep : Guarded PageframeStep SingleFrames s a t) : HintFull t := by
  obtain ⟨hok, hstep⟩ := hstep
  cases hstep with
  | request hr => exact h.requested (pageframeRequest_requested h.quiet.frames_lt hr)
  | requestPages hr => exact hok.elim
  | free hr => exact h.released hok (releaseFrames_released hr)
  | lock hm => exact h.marked (markFrames_marked hm)
  | reserve hm => exact h.marked (markFrames_marked hm)
  | unreserve hr => exact h.released hok (releaseFrames_released hr)

private theorem hint_le (h : HintFull s) (hr : r ∈ freeFrames s) : s.currentIndex ≤ r := by
  by_contra hlt
  have hfree := hr.2
  rw [h.below r (Nat.not_le.mp hlt)] at hfree
  exact Bool.noConfusion hfree

private theorem servesLowest (h : HintFull s) : ServesLowest s := by
  obtain ⟨page, t, hrequest⟩ :=
    pageframeRequest_returns (h.quiet.bit_free .request) (h.quiet.bit_free .lock)
  refine ⟨page, t, hrequest, ?_⟩
  cases pageframeRequest_requested h.quiet.frames_lt hrequest with
  | exhausted hall =>
      have hnone : freeFrames s = ∅ := by
        apply Set.eq_empty_of_forall_notMem
        intro i hi
        have hfree := hi.2
        rw [hall i (h.hint_le hi) hi.1] at hfree
        exact Bool.noConfusion hfree
      refine ⟨iff_of_true rfl hnone, fun _ i => rfl, ?_⟩
      intro r hr
      exact absurd hr.1 (hnone ▸ Set.notMem_empty r)
  | @found r t hle hlt hfree hall hm =>
      have hmem : r ∈ freeFrames s := ⟨hlt, hfree⟩
      have hleast : IsLeast (freeFrames s) r := by
        refine ⟨hmem, ?_⟩
        intro i hi
        by_contra hir
        have hifree := hi.2
        rw [hall i (h.hint_le hi) (Nat.not_le.mp hir)] at hifree
        exact Bool.noConfusion hifree
      have hne : r ≠ 0 := by
        rintro rfl
        rw [h.zero] at hfree
        exact Bool.noConfusion hfree
      have hsome : freeFrames s ≠ ∅ := Set.nonempty_iff_ne_empty.mp ⟨r, hmem⟩
      refine ⟨iff_of_false (by omega) hsome, fun hnone => absurd hnone hsome, ?_⟩
      intro r' hr'
      obtain rfl := hleast.unique hr'
      refine ⟨Nat.mul_comm r 4096, ?_⟩
      intro i
      rw [hm.inUse, Pageframe.inUse_hint, Pageframe.frames_hint]
      by_cases hi : i = r
      · simp [hi, hlt.le]
      · simp [hi]

end HintFull

/-- In a run of calls for single frames and ranges, from any state whose hint has no free frame
below it, it stays so, and every request is served with the lowest free frame. -/
theorem pageframe_first_fit {s₀ s : Pageframe} {actions : List PageframeAction}
    (hquiet : Quiet s₀) (hzero : s₀.inUse 0 = true)
    (hbelow : ∀ i < s₀.currentIndex, s₀.inUse i = true)
    (hrun : Run (Guarded PageframeStep SingleFrames) s₀ actions s) :
    (∀ i < s.currentIndex, s.inUse i = true) ∧ ServesLowest s := by
  have hinv : HintFull s :=
    hrun.invariant (fun _ _ _ h hstep => h.step hstep) ⟨hquiet, hzero, hbelow⟩
  exact ⟨hinv.below, hinv.servesLowest⟩

theorem pageframe_first_fit_eightFrames :
    ∃ s, Run (Guarded PageframeStep SingleFrames) eightFrames
        [.request, .reserve 8192 2, .free 4096 1] s ∧
      (∀ i < s.currentIndex, s.inUse i = true) ∧ ServesLowest s := by
  have hquiet : Quiet eightFrames := ⟨by decide, rfl⟩
  obtain ⟨page, t, hrequest⟩ :=
    pageframeRequest_returns (hquiet.bit_free .request) (hquiet.bit_free .lock)
  have hquietT := hquiet.requested (pageframeRequest_requested hquiet.frames_lt hrequest)
  obtain ⟨u, hreserve, hmarked⟩ := markFrames_spec .reserved 8192 2 (hquietT.bit_free .lock)
  have hquietU := hquietT.marked hmarked
  obtain ⟨s, hfree, -⟩ := releaseFrames_spec .used 4096 1 (hquietU.bit_free .free)
  have hrun : Run (Guarded PageframeStep SingleFrames) eightFrames
      [.request, .reserve 8192 2, .free 4096 1] s :=
    .cons ⟨trivial, .request hrequest⟩ (.cons ⟨trivial, .reserve hreserve⟩
      (.cons ⟨show 0 ∉ frameIndexes 4096 1 by decide, .free hfree⟩ (.nil s)))
  exact ⟨s, hrun, pageframe_first_fit hquiet (by decide) (by decide) hrun⟩

end VisualOS.Kernel
