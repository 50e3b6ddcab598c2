import VisualOS.Memory.PageframeOwnership
import VisualOS.Memory.PagingAttribute

/-!
# The memory system calls

`sys_memory.c`.  Both calls drive the kernel's own frame allocator with what the caller passes;
nothing records which frames a caller was given.
-/

namespace VisualOS.Kernel

open Framework

/-- The allocator, the page tables and `paging_get_pagetable_l4()`. -/
structure SysMemory where
  allocator : Pageframe
  paging : Paging
  pagetableL4 : BitVec 64

/-- `PROT_WRITE`. -/
def protWrite : BitVec 32 := 2

/-- `none` when the scan of `pageframe_request_pages` does not end within the given rounds. -/
def sysMmap (rounds : Nat) (_addr len : BitVec 64) (prot _flags _fd : BitVec 32)
    (_offset : BitVec 64) (s : SysMemory) : Option (BitVec 64 × SysMemory) := do
  let pages := nearestPage len.toNat
  let (block, allocator) ← pageframeRequestPages rounds pages s.allocator
  let block := BitVec.ofNat 64 block
  let paging :=
    if prot ||| protWrite ≠ 0 then
      pagingSetAttribute s.pagetableL4 block (BitVec.ofNat 64 pages) .writable true s.paging
    else s.paging
  return (block, { s with allocator, paging })

def sysMunmap (addr len : BitVec 64) (s : SysMemory) : Option (BitVec 64 × SysMemory) := do
  let pages := nearestPage len.toNat
  let allocator ← pageframeFree addr.toNat pages s.allocator
  return (0, { s with allocator })

inductive SysCall
  | mmap (addr len : BitVec 64) (prot flags fd : BitVec 32) (offset : BitVec 64)
  | munmap (addr len : BitVec 64)

inductive SysStep : SysMemory → SysCall → SysMemory → Prop
  | mmap {s t : SysMemory} {addr len offset block : BitVec 64} {prot flags fd : BitVec 32}
      (rounds : Nat) : sysMmap rounds addr len prot flags fd offset s = some (block, t) →
      SysStep s (.mmap addr len prot flags fd offset) t
  | munmap {s t : SysMemory} {addr len result : BitVec 64} :
      sysMunmap addr len s = some (result, t) → SysStep s (.munmap addr len) t

/-- The frames that `sys_munmap` frees, whoever they belong to. -/
def munmapFrames (addr len : BitVec 64) : List Nat :=
  frameIndexes addr.toNat (nearestPage len.toNat)

/-! ## What the calls do to the frames -/

private theorem pageframeRequestPages_inUse {pages rounds page i : Nat} {s t : Pageframe}
    (h : pageframeRequestPages rounds pages s = some (page, t)) (hi : s.inUse i = true) :
    t.inUse i = true := by
  cases pageframeRequestPages_requested h with
  | exhausted _ _ => exact hi
  | found _ _ _ hmarked => rw [hmarked.inUse, Pageframe.inUse_hint, hi, Bool.true_or]

section Steps

variable {s t : SysMemory} {addr len offset result : BitVec 64} {prot flags fd : BitVec 32}
  {rounds i : Nat}

private theorem sysMmap_inUse
    (h : sysMmap rounds addr len prot flags fd offset s = some (result, t))
    (hi : s.allocator.inUse i = true) : t.allocator.inUse i = true := by
  simp only [sysMmap, Option.bind_eq_bind, Option.bind_eq_some_iff, Option.pure_def,
    Option.some.injEq, Prod.mk.injEq] at h
  obtain ⟨⟨block, allocator⟩, hrequest, -, rfl⟩ := h
  exact pageframeRequestPages_inUse hrequest hi

private theorem sysMunmap_inUse (h : sysMunmap addr len s = some (result, t)) :
    t.allocator.inUse i = true ↔ s.allocator.inUse i = true ∧ i ∉ munmapFrames addr len := by
  simp only [sysMunmap, Option.bind_eq_bind, Option.bind_eq_some_iff, Option.pure_def,
    Option.some.injEq, Prod.mk.injEq] at h
  obtain ⟨allocator, hfree, -, rfl⟩ := h
  rw [(releaseFrames_released hfree).inUse]
  simp [munmapFrames]

private theorem SysStep.inUse {call : SysCall} (hstep : SysStep s call t)
    (hcall : ∀ addr len, call = .munmap addr len → i ∉ munmapFrames addr len)
    (hi : s.allocator.inUse i = true) : t.allocator.inUse i = true := by
  cases hstep with
  | mmap rounds h => exact sysMmap_inUse h hi
  | munmap h => exact (sysMunmap_inUse h).mpr ⟨hi, hcall _ _ rfl⟩

end Steps

/-- The condition: no range that is unmapped has a frame that was in use at the start. -/
def UnmapsOnlyFree (s : SysMemory) (calls : List SysCall) : Prop :=
  ∀ addr len, .munmap addr len ∈ calls → ∀ i ∈ munmapFrames addr len, s.allocator.inUse i = false

/-- What was in use at the start is in use in every state reached exactly under the condition. -/
theorem frames_stay_in_use_iff {s t : SysMemory} {calls : List SysCall}
    (hrun : Run SysStep s calls t) :
    (∀ before after u, calls = before ++ after → Run SysStep s before u → Run SysStep u after t →
      ∀ i, s.allocator.inUse i = true → u.allocator.inUse i = true) ↔
      UnmapsOnlyFree s calls := by
  constructor
  · intro hkept addr len hmem i hi
    obtain ⟨before, after, rfl⟩ := List.append_of_mem hmem
    obtain ⟨u, hbefore, hrest⟩ := hrun.split
    cases hrest with
    | @cons _ v _ _ _ hstep hafter =>
        have hreached : Run SysStep s (before ++ [.munmap addr len]) v :=
          hbefore.append (.cons hstep (.nil v))
        cases hstep with
        | munmap h =>
            by_contra hinUse
            rw [Bool.not_eq_false] at hinUse
            have hv := hkept _ after v (List.append_assoc before [.munmap addr len] after).symm
              hreached hafter i hinUse
            exact ((sysMunmap_inUse h).mp hv).2 hi
  · rintro hcondition before after u rfl hbefore - i hi
    have hfree : ∀ call ∈ before, ∀ addr len, call = .munmap addr len →
        i ∉ munmapFrames addr len := by
      rintro call hmem addr len rfl hi'
      rw [hcondition addr len (List.mem_append_left _ hmem) i hi'] at hi
      exact absurd hi (by decide)
    clear hcondition hrun
    induction hbefore with
    | nil => exact hi
    | cons hstep _ ih =>
        apply ih
        · exact hstep.inUse (hfree _ List.mem_cons_self) hi
        · exact fun call hcall => hfree call (List.mem_cons_of_mem _ hcall)

/-- Eight frames, of which frame 0 is in use. -/
def smallMemory : SysMemory := ⟨eightFrames, ⟨fun _ _ => 0, fun _ => 0, 0⟩, 0x1000⟩

/-- A caller that maps two pages and unmaps what it was given. -/
def smallCalls : List SysCall := [.mmap 0 0x1800 2 0x22 0 0, .munmap 0x1000 0x1800]

theorem frames_stay_in_use_iff_two : ∃ t, Run SysStep smallMemory smallCalls t ∧
    ∀ before after u, smallCalls = before ++ after → Run SysStep smallMemory before u →
      Run SysStep u after t →
      ∀ i, smallMemory.allocator.inUse i = true → u.allocator.inUse i = true := by
  have hrun : ∃ t, Run SysStep smallMemory smallCalls t :=
    ⟨_, .cons (.mmap 2 rfl) (.cons (.munmap rfl) (.nil _))⟩
  obtain ⟨t, hrun⟩ := hrun
  refine ⟨t, hrun, (frames_stay_in_use_iff hrun).mpr ?_⟩
  intro addr len hmem
  obtain ⟨rfl, rfl⟩ : addr = 0x1000 ∧ len = 0x1800 := by simpa [smallCalls] using hmem
  decide

/-- Unmapping an address the caller was never given frees a frame of the kernel. -/
theorem munmap_frees_foreign_frame : ∃ t, Run SysStep smallMemory [.munmap 0 1] t ∧
    smallMemory.allocator.inUse 0 = true ∧ t.allocator.inUse 0 = false :=
  ⟨_, .cons (.munmap rfl) (.nil _), by decide, by decide⟩

end VisualOS.Kernel
