import Mathlib.Tactic
import Mathlib.Order.CompletePartialOrder
import VisualOS.Framework.Transition
import VisualOS.Memory.PageframeRequests

/-!
# Exclusive ownership of frames

Sequential runs of requests and of frees of what was handed out, with the blocks still live
recorded next to the allocator.  A block may run past the end of the bitmap; two such blocks
would share the last tracked frame, so the bits alone keep all live blocks apart.
-/

namespace VisualOS.Kernel

open Framework

/-- What one successful request handed out. -/
structure Block where
  address : Nat
  pages : Nat
  deriving DecidableEq, Repr

def Block.frames (b : Block) : Set Nat :=
  Set.Ico (b.address / 4096) (b.address / 4096 + b.pages)

/-- The allocator together with the blocks that are live. -/
structure Owned where
  allocator : Pageframe
  live : List Block

inductive OwnAction
  | request
  | requestPages (pages : Nat)
  | free (block : Block)

/-- A request that answers `NULL` hands out nothing. -/
def handOut (page pages : Nat) (live : List Block) : List Block :=
  if page = 0 then live else ⟨page, pages⟩ :: live

inductive OwnStep : Owned → OwnAction → Owned → Prop
  | request {c : Owned} {page : Nat} {t : Pageframe} :
      pageframeRequest c.allocator = some (page, t) →
      OwnStep c .request ⟨t, handOut page 1 c.live⟩
  | requestPages {c : Owned} {pages page : Nat} {t : Pageframe} (rounds : Nat) :
      1 ≤ pages → pages ≤ 2 ^ 52 →
      pageframeRequestPages rounds pages c.allocator = some (page, t) →
      OwnStep c (.requestPages pages) ⟨t, handOut page pages c.live⟩
  | free {c : Owned} {block : Block} {t : Pageframe} :
      block ∈ c.live → pageframeFree block.address block.pages c.allocator = some t →
      OwnStep c (.free block) ⟨t, c.live.erase block⟩

/-- The state of the ledger `c` after a run that started from `s₀` with no block live. -/
structure OwnInvariant (s₀ : Pageframe) (c : Owned) : Prop where
  size : c.allocator.pageframemap.size = s₀.pageframemap.size
  aligned : ∀ b ∈ c.live, b.pages ≤ 2 ^ 52 ∧
    ∃ r < s₀.frames, b.address = r * 4096
  disjoint : c.live.Pairwise fun b b' => Disjoint b.frames b'.frames
  fresh : ∀ b ∈ c.live, ∀ i ∈ b.frames, s₀.inUse i = false
  marked : ∀ i ≤ s₀.frames, c.allocator.inUse i = true ↔
    s₀.inUse i = true ∨ ∃ b ∈ c.live, i ∈ b.frames

theorem mem_frames_mul {r pages i : Nat} :
    i ∈ (Block.mk (r * 4096) pages).frames ↔ r ≤ i ∧ i < r + pages := by
  simp only [Block.frames, Nat.mul_div_cancel r (by decide : 0 < 4096), Set.mem_Ico]

/-- A frame that two blocks share lies in the bitmap or beyond its end, where both contain
the index at the end as well. -/
theorem disjoint_of_tracked {b b' : Block} {n : Nat}
    (hb : b.address / 4096 < n) (hb' : b'.address / 4096 < n)
    (h : ∀ i ≤ n, i ∈ b.frames → i ∈ b'.frames → False) : Disjoint b.frames b'.frames := by
  rw [Set.disjoint_left]
  intro i hi hi'
  rcases Nat.lt_or_ge n i with hlt | hle
  · simp only [Block.frames, Set.mem_Ico] at hi hi'
    refine h n le_rfl ?_ ?_
    · simp only [Block.frames, Set.mem_Ico]
      omega
    · simp only [Block.frames, Set.mem_Ico]
      omega
  · exact h i hle hi hi'

namespace OwnInvariant

variable {s₀ : Pageframe} {c : Owned}

theorem initial (s₀ : Pageframe) : OwnInvariant s₀ ⟨s₀, []⟩ :=
  ⟨rfl, by simp, .nil, by simp, by simp⟩

theorem unchanged {t : Pageframe} (h : OwnInvariant s₀ c)
    (hmap : t.pageframemap = c.allocator.pageframemap) : OwnInvariant s₀ ⟨t, c.live⟩ := by
  refine ⟨by rw [hmap]; exact h.size, h.aligned, h.disjoint, h.fresh, ?_⟩
  intro i hi
  rw [Pageframe.inUse, hmap]
  exact h.marked i hi

private theorem grant {t : Pageframe} {r pages : Nat} (h : OwnInvariant s₀ c)
    (hpages : pages ≤ 2 ^ 52)
    (hr : r < s₀.frames) (hclear : ∀ i, r ≤ i → i < r + pages → c.allocator.inUse i = false)
    (hsize : t.pageframemap.size = c.allocator.pageframemap.size)
    (hset : ∀ i ≤ s₀.frames, t.inUse i = true ↔
      c.allocator.inUse i = true ∨ r ≤ i ∧ i < r + pages) :
    OwnInvariant s₀ ⟨t, ⟨r * 4096, pages⟩ :: c.live⟩ := by
  have hold : ∀ i ≤ s₀.frames, r ≤ i → i < r + pages →
      s₀.inUse i = false ∧ ∀ b ∈ c.live, i ∉ b.frames := by
    intro i hi hri hirp
    have hfree := hclear i hri hirp
    have hnot : ¬(s₀.inUse i = true ∨ ∃ b ∈ c.live, i ∈ b.frames) := by
      rw [← h.marked i hi, hfree]
      exact Bool.false_ne_true
    refine ⟨by simpa using fun hs => hnot (.inl hs), fun b hb hmem => hnot (.inr ⟨b, hb, hmem⟩)⟩
  refine ⟨hsize.trans h.size, ?_, ?_, ?_, ?_⟩
  · intro b hb
    rcases List.mem_cons.mp hb with rfl | hb
    · exact ⟨hpages, r, hr, rfl⟩
    · exact h.aligned b hb
  · refine List.pairwise_cons.mpr ⟨?_, h.disjoint⟩
    intro b hb
    obtain ⟨-, q, hq, hbq⟩ := h.aligned b hb
    refine disjoint_of_tracked (n := s₀.frames) ?_ ?_ ?_
    · simpa using hr
    · rw [hbq]
      simpa using hq
    · intro i hi hmem hmem'
      rw [mem_frames_mul] at hmem
      exact (hold i hi hmem.1 hmem.2).2 b hb hmem'
  · intro b hb i hi
    rcases List.mem_cons.mp hb with rfl | hb
    · rcases Nat.lt_or_ge s₀.frames i with hlt | hle
      · exact inUse_out_of_range hlt
      · rw [mem_frames_mul] at hi
        exact (hold i hle hi.1 hi.2).1
    · exact h.fresh b hb i hi
  · intro i hi
    rw [hset i hi, h.marked i hi]
    simp only [List.mem_cons, exists_eq_or_imp, mem_frames_mul]
    rw [or_assoc, or_comm (b := r ≤ i ∧ i < r + pages)]

private theorem revoke {t : Pageframe} {b : Block} (h : OwnInvariant s₀ c) (hb : b ∈ c.live)
    (hsize : t.pageframemap.size = c.allocator.pageframemap.size)
    (hcleared : ∀ i, t.inUse i = true ↔ c.allocator.inUse i = true ∧ i ∉ b.frames) :
    OwnInvariant s₀ ⟨t, c.live.erase b⟩ := by
  have hperm := List.perm_cons_erase hb
  have hpair : (b :: c.live.erase b).Pairwise fun b b' => Disjoint b.frames b'.frames :=
    (hperm.pairwise_iff fun h' => h'.symm).mp h.disjoint
  have hsub : ∀ b' ∈ c.live.erase b, b' ∈ c.live := fun b' hb' => List.mem_of_mem_erase hb'
  refine ⟨hsize.trans h.size, fun b' hb' => h.aligned b' (hsub b' hb'),
    (List.pairwise_cons.mp hpair).2, fun b' hb' => h.fresh b' (hsub b' hb'), ?_⟩
  intro i hi
  rw [hcleared i, h.marked i hi]
  constructor
  · rintro ⟨hs | ⟨b', hb', hmem⟩, hnot⟩
    · exact .inl hs
    · refine .inr ⟨b', ?_, hmem⟩
      rcases List.mem_cons.mp (hperm.mem_iff.mp hb') with rfl | hb'
      · exact absurd hmem hnot
      · exact hb'
  · rintro (hs | ⟨b', hb', hmem⟩)
    · refine ⟨.inl hs, fun hmem => ?_⟩
      rw [h.fresh b hb i hmem] at hs
      exact Bool.false_ne_true hs
    · refine ⟨.inr ⟨b', hsub b' hb', hmem⟩, fun hmem' => ?_⟩
      exact Set.disjoint_left.mp ((List.pairwise_cons.mp hpair).1 b' hb') hmem' hmem

theorem frames_eq (h : OwnInvariant s₀ c) : c.allocator.frames = s₀.frames :=
  frames_of_size h.size

/-- Frame 0 stays in use, so no block starts at the address that means `NULL`. -/
theorem frame_zero (h : OwnInvariant s₀ c) (hzero : s₀.inUse 0 = true) :
    c.allocator.inUse 0 = true :=
  (h.marked 0 (Nat.zero_le _)).mpr (.inl hzero)

private theorem handOut_pos {page pages r : Nat} {live : List Block} (h : page = r * 4096)
    (hr : r ≠ 0) : handOut page pages live = ⟨r * 4096, pages⟩ :: live := by
  subst page
  rw [handOut, if_neg (by omega)]

theorem step_request {t : Pageframe} {page : Nat} (h : OwnInvariant s₀ c)
    (hzero : s₀.inUse 0 = true)
    (hreq : Requested c.allocator page t) : OwnInvariant s₀ ⟨t, handOut page 1 c.live⟩ := by
  cases hreq with
  | exhausted _ => exact h.unchanged rfl
  | @found r _ _ hlt hfree _ hmarked =>
      rw [h.frames_eq] at hlt
      have hr : r ≠ 0 := by
        rintro rfl
        rw [h.frame_zero hzero] at hfree
        exact Bool.noConfusion hfree
      rw [handOut_pos rfl hr]
      refine h.grant (by omega) hlt ?_ hmarked.size ?_
      · intro i hi hi'
        rw [show i = r by omega]
        exact hfree
      · intro i hi
        rw [hmarked.inUse]
        change (c.allocator.inUse i || (decide (i ∈ [r]) && decide (i ≤ c.allocator.frames))) =
          true ↔ _
        rw [h.frames_eq]
        simp only [List.mem_singleton, hi, decide_true, Bool.and_true, Bool.or_eq_true,
          decide_eq_true_eq]
        constructor
        · rintro (hu | rfl)
          · exact .inl hu
          · exact .inr ⟨le_rfl, by omega⟩
        · rintro (hu | hu)
          · exact .inl hu
          · exact .inr (by omega)

theorem step_requestPages {t : Pageframe} {page pages : Nat} (h : OwnInvariant s₀ c)
    (hframes : s₀.frames < 2 ^ 52) (hzero : s₀.inUse 0 = true) (hpos : 1 ≤ pages)
    (hpages : pages ≤ 2 ^ 52) (hreq : RequestedPages pages c.allocator page t) :
    OwnInvariant s₀ ⟨t, handOut page pages c.live⟩ := by
  cases hreq with
  | exhausted _ _ => exact h.unchanged rfl
  | @found r _ _ hlt hclear hmarked =>
      rw [h.frames_eq] at hlt
      have hmod : ∀ i, i < r + pages → i % 2 ^ 64 = i := fun i hi => Nat.mod_eq_of_lt (by omega)
      have hpage : r * 4096 % 2 ^ 64 = r * 4096 := Nat.mod_eq_of_lt (by omega)
      have hfree : ∀ i, r ≤ i → i < r + pages → c.allocator.inUse i = false := by
        intro i hi hi'
        have := hclear (i - r) (by omega)
        rwa [show r + (i - r) = i by omega, hmod i hi'] at this
      have hr : r ≠ 0 := by
        rintro rfl
        have := hfree 0 le_rfl (by omega)
        rw [h.frame_zero hzero] at this
        exact Bool.noConfusion this
      rw [handOut_pos hpage hr]
      refine h.grant hpages hlt hfree hmarked.size ?_
      intro i hi
      rw [hmarked.inUse, hpage]
      change (c.allocator.inUse i || (decide (i ∈ frameIndexes (r * 4096) pages) &&
        decide (i ≤ c.allocator.frames))) = true ↔ _
      have hdiv : r * 4096 / 4096 = r := Nat.mul_div_cancel r (by decide)
      rw [h.frames_eq]
      simp only [hi, decide_true, Bool.and_true, Bool.or_eq_true, decide_eq_true_eq]
      rw [mem_frameIndexes (by omega), hdiv]

private theorem step_free {t : Pageframe} {b : Block} (h : OwnInvariant s₀ c)
    (hframes : s₀.frames < 2 ^ 52) (hb : b ∈ c.live)
    (hfree : Released (frameIndexes b.address b.pages) c.allocator t) :
    OwnInvariant s₀ ⟨t, c.live.erase b⟩ := by
  obtain ⟨hpages, r, hr, haddress⟩ := h.aligned b hb
  refine h.revoke hb hfree.size ?_
  intro i
  have hmem : i ∈ frameIndexes b.address b.pages ↔ i ∈ b.frames := by
    rw [mem_frameIndexes (by omega)]
    rfl
  rw [hfree.inUse, Bool.and_eq_true, Bool.not_eq_true', decide_eq_false_iff_not, hmem]

end OwnInvariant

theorem ownStep_invariant {s₀ : Pageframe} {c d : Owned} {a : OwnAction}
    (hframes : s₀.frames < 2 ^ 52) (hzero : s₀.inUse 0 = true) (h : OwnInvariant s₀ c)
    (hstep : OwnStep c a d) : OwnInvariant s₀ d := by
  cases hstep with
  | request hreq => exact h.step_request hzero (pageframeRequest_requested
      (h.frames_eq ▸ hframes) hreq)
  | requestPages rounds hpos hpages hreq =>
      exact h.step_requestPages hframes hzero hpos hpages (pageframeRequestPages_requested hreq)
  | free hb hfree => exact h.step_free hframes hb (releaseFrames_released hfree)

/-- `pageframe_init` divides a 64-bit byte count by 4096 and by 8, hence the bound on the
size.  From any such bitmap with frame 0 in use, live blocks never share a frame with each
other or with what was in use, and the bits record exactly these two. -/
theorem pageframe_exclusive_ownership {s₀ : Pageframe} {actions : List OwnAction} {c : Owned}
    (hsize : s₀.pageframemap.size < 2 ^ 49) (hzero : s₀.inUse 0 = true)
    (hrun : Run OwnStep ⟨s₀, []⟩ actions c) :
    c.live.Pairwise (fun b b' => Disjoint b.frames b'.frames) ∧
      (∀ b ∈ c.live, ∀ i ∈ b.frames, s₀.inUse i = false) ∧
      c.allocator.pageframemap.size = s₀.pageframemap.size ∧
      ∀ i < 8 * c.allocator.pageframemap.size, c.allocator.inUse i = true ↔
        s₀.inUse i = true ∨ ∃ b ∈ c.live, i ∈ b.frames := by
  have hframes := frames_eq_of_size hsize
  have hinv : OwnInvariant s₀ c := hrun.invariant
    (fun _ _ _ h hstep => ownStep_invariant (by omega) hzero h hstep) (.initial s₀)
  refine ⟨hinv.disjoint, hinv.fresh, hinv.size, ?_⟩
  intro i hi
  rw [hinv.size, ← hframes] at hi
  exact hinv.marked i hi.le

/-- Eight frames of which only frame 0 is taken. -/
def eightFrames : Pageframe where
  memoryTotalSize := 32768
  memoryUsedSize := 4096
  memoryReservedSize := 0
  pageframemap := ⟨fun i => if i = 0 then 0b10000000 else 0, 1⟩
  currentIndex := 0
  mutex := 0

/-- Two requests of which the second runs past the end of the bitmap, and a free between. -/
theorem pageframe_exclusive_ownership_run :
    ∃ c, Run OwnStep ⟨eightFrames, []⟩
        [.requestPages 3, .request, .free ⟨4096, 3⟩, .requestPages 6] c ∧
      c.live = [⟨20480, 6⟩, ⟨16384, 1⟩] ∧
      ∀ i < 8 * c.allocator.pageframemap.size, c.allocator.inUse i = true ↔
        eightFrames.inUse i = true ∨ ∃ b ∈ c.live, i ∈ b.frames := by
  have hrun : ∃ c, Run OwnStep ⟨eightFrames, []⟩
      [.requestPages 3, .request, .free ⟨4096, 3⟩, .requestPages 6] c ∧
      c.live = [⟨20480, 6⟩, ⟨16384, 1⟩] := by
    refine ⟨_, .cons (.requestPages 2 (by decide) (by decide) rfl)
      (.cons (.request rfl) (.cons (.free (by decide) rfl)
      (.cons (.requestPages 2 (by decide) (by decide) rfl) (.nil _)))), ?_⟩
    decide
  obtain ⟨c, hrun, hlive⟩ := hrun
  exact ⟨c, hrun, hlive,
    (pageframe_exclusive_ownership (by decide) (by decide) hrun).2.2.2⟩

end VisualOS.Kernel
