import VisualOS.Memory.PageframeConcurrency
import VisualOS.Scheduler.TimerRefinement
import VisualOS.X86.ApMemory
import VisualOS.X86.Descriptors

/-!
# The memory of a CPU

Every CPU runs `cpu_allocate`, which requests its descriptor tables and its three interrupt stacks.
The requests of different CPUs interleave with each other and with what else uses the allocator, step
by step as in `PageframeConcurrency`.
-/

namespace VisualOS.Kernel

open Framework

/-- `CPU_STACK_PAGES_ISR`. -/
def cpuStackPagesIsr : Nat := 1

/-- `CPU_STACK_PAGES_IRQ`. -/
def cpuStackPagesIrq : Nat := 2

/-- `CPU_STACK_PAGES_TIMER`. -/
def cpuStackPagesTimer : Nat := 1

def sizeofTimerStackTop : Nat := 32

/-- What `cpu_allocate` sets in a `CPUContext`, but for the shared `idt_block`. -/
structure CpuMemory where
  gdtBlock : Nat
  stackIsr : Nat
  stackIrq : Nat
  stackTimerBegin : Nat
  stackTimer : Nat
  deriving DecidableEq, Repr

/-- The pages that `cpu_allocate` requests, in this order. -/
def cpuRequests : List Nat :=
  [nearestPage sizeofGdtBlock, cpuStackPagesIsr, cpuStackPagesIrq, cpuStackPagesTimer]

/-- `_cpu_allocate_stack`, from the answer of the allocator. -/
def cpuAllocateStack (stack pages : Nat) : Nat := (stack + pages * 4096) % 2 ^ 64

/-- `cpu_allocate`, from the four answers of the allocator. -/
def cpuAllocate (gdtBlock isr irq timer : Nat) : CpuMemory :=
  let stackTimer := cpuAllocateStack timer cpuStackPagesTimer
  { gdtBlock
    stackIsr := cpuAllocateStack isr cpuStackPagesIsr
    stackIrq := cpuAllocateStack irq cpuStackPagesIrq
    stackTimerBegin := (stackTimer + 2 ^ 64 - cpuStackPagesTimer * 4096) % 2 ^ 64
    stackTimer := (stackTimer + 2 ^ 64 - sizeofTimerStackTop) % 2 ^ 64 }

namespace CpuMemory

/-- The bytes of the tables and of the three stacks.  The timer's stack has the `TimerStackTop`
above it. -/
def areas (m : CpuMemory) : List (Set Nat) :=
  [Set.Ico m.gdtBlock (m.gdtBlock + sizeofGdtBlock),
   Set.Ico (m.stackIsr - cpuStackPagesIsr * 4096) m.stackIsr,
   Set.Ico (m.stackIrq - cpuStackPagesIrq * 4096) m.stackIrq,
   Set.Ico m.stackTimerBegin (m.stackTimer + sizeofTimerStackTop)]

def bytes (m : CpuMemory) : Set Nat := {a | ∃ area ∈ m.areas, a ∈ area}

end CpuMemory

/-- The CPUs and their calls of the allocator.  `entered` are those that have called `cpu_allocate`,
and `granted` is what it was answered so far. -/
structure CpuBoot (κ : Type) where
  alloc : AllocSystem κ
  entered : κ → Bool
  granted : κ → List Block

def cpuBoot {κ : Type} (s₀ : Pageframe) : CpuBoot κ :=
  ⟨⟨s₀, fun _ => .idle, []⟩, fun _ => false, fun _ => []⟩

/-- `other` is a call of the allocator that is not made by `cpu_allocate`. -/
inductive CpuBootAction (κ : Type)
  | enter (cpu : κ)
  | request (cpu : κ)
  | step (cpu : κ)
  | other (a : AllocAction κ)

def AllocAction.cpu {κ : Type} : AllocAction κ → κ
  | .request cpu | .requestPages cpu _ | .free cpu _ | .step cpu => cpu

def AllocAction.isCall {κ : Type} : AllocAction κ → Bool
  | .step _ => false
  | _ => true

/-- The request is about to return `NULL`. -/
def AllocPc.answersNull : AllocPc → Bool
  | .release _ page => page = 0
  | _ => false

namespace CpuBoot

variable {κ : Type}

/-- The context of a CPU that is through `cpu_allocate`. -/
def context (s : CpuBoot κ) (cpu : κ) : Option CpuMemory :=
  match s.granted cpu with
  | [gdtBlock, isr, irq, timer] =>
      some (cpuAllocate gdtBlock.address isr.address irq.address timer.address)
  | _ => none

/-- The CPU is in `cpu_allocate`, which is not through with its requests. -/
def Allocating (s : CpuBoot κ) (cpu : κ) : Prop :=
  s.entered cpu = true ∧ (s.granted cpu).length < cpuRequests.length

instance (s : CpuBoot κ) (cpu : κ) : Decidable (s.Allocating cpu) :=
  inferInstanceAs (Decidable (_ ∧ _))

def nextRequest (s : CpuBoot κ) (cpu : κ) : Nat := cpuRequests.getD (s.granted cpu).length 0

/-- What a CPU has been given after its next step. -/
def grants (s : CpuBoot κ) (cpu : κ) : List Block :=
  match s.alloc.pc cpu with
  | .release pages page =>
      if s.Allocating cpu then s.granted cpu ++ [⟨page, pages⟩] else s.granted cpu
  | _ => s.granted cpu

variable [DecidableEq κ]

def exec (s : CpuBoot κ) : CpuBootAction κ → CpuBoot κ
  | .enter cpu => { s with entered := Function.update s.entered cpu true }
  | .request cpu =>
      { s with alloc := allocExec s.alloc (.requestPages cpu (s.nextRequest cpu)) }
  | .step cpu =>
      { s with
        alloc := allocExec s.alloc (.step cpu)
        granted := Function.update s.granted cpu (s.grants cpu) }
  | .other a => { s with alloc := allocExec s.alloc a }

/-- There are enough free frames, so no request of `cpu_allocate`, which does not check for it,
answers `NULL`.  What a CPU was given by it is never freed. -/
def Allows (s : CpuBoot κ) : CpuBootAction κ → Prop
  | .enter cpu => s.entered cpu = false ∧ s.alloc.pc cpu = .idle
  | .request cpu => s.Allocating cpu ∧ s.alloc.pc cpu = .idle
  | .step cpu => allocEnabled s.alloc (.step cpu) = true ∧
      (s.Allocating cpu → (s.alloc.pc cpu).answersNull = false)
  | .other a => ¬s.Allocating a.cpu ∧ a.isCall = true ∧ allocEnabled s.alloc a = true ∧
      ∀ cpu, ∀ b ∈ s.granted cpu, a ≠ .free a.cpu b

/-- No free disturbs the scan of a request. -/
def Undisturbed (s : CpuBoot κ) : CpuBootAction κ → Prop
  | .step cpu => ScansUndisturbed s.alloc (.step cpu)
  | .other a => ScansUndisturbed s.alloc a
  | _ => True

end CpuBoot

def CpuBootStep {κ : Type} [DecidableEq κ] (s : CpuBoot κ) (a : CpuBootAction κ) (t : CpuBoot κ) :
    Prop :=
  s.Allows a ∧ t = s.exec a

/-! ## Single steps of the allocator -/

section Alloc

variable {κ : Type} [DecidableEq κ] {s : AllocSystem κ} {a : AllocAction κ}

private theorem allocExec_pc {cpu : κ} (h : cpu ≠ a.cpu) : (allocExec s a).pc cpu = s.pc cpu := by
  cases a with
  | request c => exact Function.update_of_ne h ..
  | requestPages c pages => exact Function.update_of_ne h ..
  | free c block => exact Function.update_of_ne h ..
  | step c =>
      rw [allocExec]
      split
      · rfl
      · exact Function.update_of_ne h ..

private theorem subset_handsOut (p : AllocPc) (live : List Block) : live ⊆ p.handsOut live := by
  cases p with
  | release pages page =>
      rw [AllocPc.handsOut, handOut]
      split
      · exact List.Subset.refl live
      · exact List.subset_cons_self _ live
  | _ => exact List.Subset.refl live

private theorem mem_live_allocExec {b : Block} (hb : b ∈ s.live) (hkept : a ≠ .free a.cpu b) :
    b ∈ (allocExec s a).live := by
  cases a with
  | request c => exact hb
  | requestPages c pages => exact hb
  | free c block =>
      have hne : b ≠ block := by
        rintro rfl
        exact hkept rfl
      exact (List.mem_erase_of_ne hne).mpr hb
  | step c =>
      rw [allocExec]
      split
      · exact hb
      · exact subset_handsOut (s.pc c) s.live hb

/-- The processor is idle or serves a request for a number of pages. -/
def AllocPc.Serves (pages : Nat) : AllocPc → Prop
  | .idle => True
  | .acquire p | .compare p | .readIndex p _ | .probe p _ _ | .skip p _ | .readPage p
  | .advance p _ | .acquireLock p _ | .mark p _ _ => p = pages
  | .release p page => page ≠ 0 → p = pages
  | _ => False

private theorem AllocPc.Serves.next {p q : AllocPc} {pages : Nat} {s t : Pageframe}
    (h : p.Serves pages) (hstep : allocNext s p = some (q, t)) : q.Serves pages := by
  have hscan : ∀ j, (AllocPc.scanAt pages j).Serves pages := by
    intro j
    rw [AllocPc.scanAt]
    split <;> rfl
  cases p with
  | idle => cases hstep
  | acquire p =>
      rw [allocNext, Option.map_eq_some_iff] at hstep
      obtain ⟨u, -, heq⟩ := hstep
      cases heq
      exact h
  | compare p =>
      obtain rfl : p = pages := h
      cases hstep
      split
      · exact hscan 0
      · exact fun hne => absurd rfl hne
  | readIndex p j =>
      cases hstep
      exact h
  | probe p j index =>
      obtain rfl : p = pages := h
      cases hstep
      split
      · rfl
      · exact hscan _
  | skip p j =>
      cases hstep
      exact h
  | readPage p =>
      cases hstep
      exact h
  | advance p page =>
      cases hstep
      exact h
  | acquireLock p page =>
      rw [allocNext, Option.map_eq_some_iff] at hstep
      obtain ⟨u, -, heq⟩ := hstep
      cases heq
      exact h
  | mark p page rest =>
      cases rest with
      | nil =>
          cases hstep
          exact fun _ => h
      | cons i rest =>
          cases hstep
          exact h
  | release p page =>
      cases hstep
      trivial
  | acquireFree block => exact h.elim
  | clear rest => exact h.elim
  | compareFree i rest => exact h.elim
  | writeFree i rest => exact h.elim

end Alloc

/-! ## The invariant -/

private theorem cpuRequests_eq : cpuRequests = [1, 1, 2, 1] := by decide

private theorem cpuRequests_getD_le (k : Nat) : cpuRequests.getD k 0 ≤ 2 := by
  rw [cpuRequests_eq]
  rcases k with _ | _ | _ | _ | k <;> simp

private theorem requests_append {bs : List Block} {b : Block}
    (h : bs.map Block.pages <+: cpuRequests) (hlength : bs.length < cpuRequests.length)
    (hb : b.pages = cpuRequests.getD bs.length 0) :
    (bs ++ [b]).map Block.pages <+: cpuRequests := by
  obtain ⟨rest, hrest⟩ := h
  rw [← hrest] at hlength hb
  cases rest with
  | nil => simp at hlength
  | cons first tail =>
      refine ⟨tail, ?_⟩
      rw [← hrest, List.map_append, List.map_singleton, hb]
      simp

private theorem allocExec_release {κ : Type} [DecidableEq κ] {s : AllocSystem κ} {cpu : κ}
    {pages page : Nat} (hpc : s.pc cpu = .release pages page) (hpage : page ≠ 0) :
    allocExec s (.step cpu) = { s.goto cpu .idle (pageframeUnlock .request s.shared) with
      live := ⟨page, pages⟩ :: s.live } := by
  rw [allocExec, hpc, allocNext]
  dsimp only
  rw [AllocPc.handsOut, handOut, if_neg hpage]

structure CpuInvariant {κ : Type} (s₀ : Pageframe) (s : CpuBoot κ) : Prop where
  good : AllocGood s₀.frames {i | s₀.inUse i = true} s.alloc
  live : ∀ cpu, ∀ b ∈ s.granted cpu, b ∈ s.alloc.live
  pages : ∀ cpu, (s.granted cpu).map Block.pages <+: cpuRequests
  serves : ∀ cpu, s.Allocating cpu → (s.alloc.pc cpu).Serves (s.nextRequest cpu)
  own_apart : ∀ cpu, (s.granted cpu).Pairwise fun b b' => Disjoint b.frames b'.frames
  cpu_apart : ∀ cpu cpu', cpu ≠ cpu' → ∀ b ∈ s.granted cpu, ∀ b' ∈ s.granted cpu',
    Disjoint b.frames b'.frames

namespace CpuInvariant

variable {κ : Type} {s₀ : Pageframe} {s : CpuBoot κ}

private theorem initial (s₀ : Pageframe) : CpuInvariant s₀ (cpuBoot s₀ : CpuBoot κ) where
  good := .initial s₀
  live := by simp [cpuBoot]
  pages := by simp [cpuBoot]
  serves := by simp [cpuBoot, CpuBoot.Allocating]
  own_apart := by simp [cpuBoot]
  cpu_apart := by simp [cpuBoot]

private theorem enter [DecidableEq κ] {cpu : κ} (h : CpuInvariant s₀ s)
    (hidle : s.alloc.pc cpu = .idle) : CpuInvariant s₀ (s.exec (.enter cpu)) := by
  refine ⟨h.good, h.live, h.pages, ?_, h.own_apart, h.cpu_apart⟩
  intro c hc
  rcases eq_or_ne c cpu with rfl | hne
  · change (s.alloc.pc c).Serves _
    rw [hidle]
    trivial
  · have hentered : (s.exec (.enter cpu)).entered c = s.entered c := Function.update_of_ne hne ..
    exact h.serves c ⟨hentered ▸ hc.1, hc.2⟩

private theorem call [DecidableEq κ] {a : AllocAction κ} (h : CpuInvariant s₀ s)
    (hgood : AllocGood s₀.frames {i | s₀.inUse i = true} (allocExec s.alloc a))
    (hkept : ∀ cpu, ∀ b ∈ s.granted cpu, a ≠ .free a.cpu b)
    (hserves : s.Allocating a.cpu →
      ((allocExec s.alloc a).pc a.cpu).Serves (s.nextRequest a.cpu)) :
    CpuInvariant s₀ { s with alloc := allocExec s.alloc a } := by
  refine ⟨hgood, ?_, h.pages, ?_, h.own_apart, h.cpu_apart⟩
  · intro cpu b hb
    exact mem_live_allocExec (h.live cpu b hb) (hkept cpu b hb)
  · intro cpu hcpu
    rcases eq_or_ne cpu a.cpu with rfl | hne
    · exact hserves hcpu
    · dsimp only
      rw [allocExec_pc hne]
      exact h.serves cpu hcpu

/-- What a CPU is given is apart from all that is live, hence from all that was given before. -/
private theorem grant [DecidableEq κ] {cpu : κ} {pages page : Nat} (h : CpuInvariant s₀ s)
    (hgood : AllocGood s₀.frames {i | s₀.inUse i = true} (allocExec s.alloc (.step cpu)))
    (hpc : s.alloc.pc cpu = .release pages page) (hcpu : s.Allocating cpu) (hpage : page ≠ 0) :
    CpuInvariant s₀
      { s with
        alloc := allocExec s.alloc (.step cpu)
        granted := Function.update s.granted cpu (s.granted cpu ++ [⟨page, pages⟩]) } := by
  have hserves := h.serves cpu hcpu
  rw [hpc] at hserves
  have hpages : pages = s.nextRequest cpu := hserves hpage
  rw [allocExec_release hpc hpage] at hgood ⊢
  have hnew : ∀ b ∈ s.alloc.live, Disjoint (Block.mk page pages).frames b.frames := by
    intro b hb
    have htracked := List.forall_mem_cons.mp hgood.tracked
    exact disjoint_of_tracked htracked.1.2.1 (htracked.2 b hb).2.1
      ((List.pairwise_cons.mp hgood.blocks).1 b hb)
  have hcases : ∀ c, ∀ b ∈ Function.update s.granted cpu (s.granted cpu ++ [⟨page, pages⟩]) c,
      b ∈ s.granted c ∨ c = cpu ∧ b = ⟨page, pages⟩ := by
    intro c b hb
    rcases eq_or_ne c cpu with rfl | hne
    · simpa using hb
    · rw [Function.update_of_ne hne] at hb
      exact .inl hb
  apply CpuInvariant.mk
  · exact hgood
  · intro c b hb
    rcases hcases c b hb with hold | ⟨-, rfl⟩
    · exact List.mem_cons_of_mem _ (h.live c b hold)
    · exact List.mem_cons_self
  · apply (Function.forall_update_iff s.granted fun _ bs => bs.map Block.pages <+: cpuRequests).mpr
    exact ⟨requests_append (h.pages cpu) hcpu.2 hpages, fun c _ => h.pages c⟩
  · intro c hc
    rcases eq_or_ne c cpu with rfl | hne
    · simp only [AllocSystem.goto, Function.update_self]
      trivial
    · have hserves := h.serves c
      simp only [CpuBoot.Allocating, CpuBoot.nextRequest, AllocSystem.goto,
        Function.update_of_ne hne] at hc hserves ⊢
      exact hserves hc
  · apply (Function.forall_update_iff s.granted fun _ bs =>
      bs.Pairwise fun b b' => Disjoint b.frames b'.frames).mpr
    refine ⟨?_, fun c _ => h.own_apart c⟩
    rw [List.pairwise_append]
    refine ⟨h.own_apart cpu, List.pairwise_singleton _ _, ?_⟩
    intro b hb b' hb'
    rw [List.mem_singleton.mp hb']
    exact (hnew b (h.live cpu b hb)).symm
  · intro c c' hne b hb b' hb'
    rcases hcases c b hb with hold | ⟨hc, rfl⟩
    · rcases hcases c' b' hb' with hold' | ⟨-, rfl⟩
      · exact h.cpu_apart c c' hne b hold b' hold'
      · exact (hnew b (h.live c b hold)).symm
    · rcases hcases c' b' hb' with hold' | ⟨hc', -⟩
      · exact hnew b' (h.live c' b' hold')
      · exact absurd (hc.trans hc'.symm) hne

section Step

variable [DecidableEq κ] (h : CpuInvariant s₀ s) (hframes : s₀.frames ≤ 2 ^ 40)

include h hframes

private theorem good_exec {a : AllocAction κ} (henabled : allocEnabled s.alloc a = true)
    (hok : ScansUndisturbed s.alloc a) :
    AllocGood s₀.frames {i | s₀.inUse i = true} (allocExec s.alloc a) :=
  h.good.guarded (by omega) ⟨hok, allocExec_step henabled⟩

private theorem step_cpu {cpu : κ} (henabled : allocEnabled s.alloc (.step cpu) = true)
    (hnull : s.Allocating cpu → (s.alloc.pc cpu).answersNull = false)
    (hok : ScansUndisturbed s.alloc (.step cpu)) : CpuInvariant s₀ (s.exec (.step cpu)) := by
  have hgood := h.good_exec hframes henabled hok
  by_cases hrelease : s.Allocating cpu ∧ ∃ pages page, s.alloc.pc cpu = .release pages page
  · obtain ⟨hcpu, pages, page, hpc⟩ := hrelease
    have hgrants : s.grants cpu = s.granted cpu ++ [⟨page, pages⟩] := by
      rw [CpuBoot.grants, hpc]
      exact if_pos hcpu
    have hpage : page ≠ 0 := by
      have := hnull hcpu
      rw [hpc] at this
      exact of_decide_eq_false this
    rw [CpuBoot.exec, hgrants]
    exact h.grant hgood hpc hcpu hpage
  · have hgrants : s.grants cpu = s.granted cpu := by
      rw [CpuBoot.grants]
      split
      · rename_i pages page hpc
        exact if_neg fun hcpu => hrelease ⟨hcpu, pages, page, hpc⟩
      · rfl
    rw [CpuBoot.exec, hgrants, Function.update_eq_self]
    apply h.call hgood
    · exact fun _ _ _ => nofun
    · intro hcpu
      obtain ⟨⟨q, t⟩, hnext⟩ := Option.isSome_iff_exists.mp henabled
      have hpc : (allocExec s.alloc (.step cpu)).pc cpu = q := by
        rw [allocExec, hnext]
        exact Function.update_self ..
      rw [AllocAction.cpu, hpc]
      exact (h.serves cpu hcpu).next hnext

private theorem step {a : CpuBootAction κ} {s' : CpuBoot κ}
    (hstep : Guarded CpuBootStep CpuBoot.Undisturbed s a s') : CpuInvariant s₀ s' := by
  obtain ⟨hok, hallows, rfl⟩ := hstep
  cases a with
  | enter cpu => exact h.enter hallows.2
  | request cpu =>
      obtain ⟨hcpu, hidle⟩ := hallows
      have hpages := cpuRequests_getD_le (s.granted cpu).length
      have henabled : allocEnabled s.alloc (.requestPages cpu (s.nextRequest cpu)) = true :=
        decide_eq_true hidle
      apply h.call
      · apply h.good_exec hframes henabled
        change s.alloc.shared.frames + s.nextRequest cpu ≤ 2 ^ 64
        rw [h.good.frames, CpuBoot.nextRequest]
        omega
      · exact fun _ _ _ => nofun
      · intro _
        simp only [AllocAction.cpu, allocExec, AllocSystem.goto, Function.update_self]
        rfl
  | step cpu => exact h.step_cpu hframes hallows.1 hallows.2 hok
  | other a =>
      obtain ⟨hcpu, -, henabled, hkept⟩ := hallows
      exact h.call (h.good_exec hframes henabled hok) hkept fun hc => absurd hc hcpu

end Step

private theorem aligned {b : Block} (h : CpuInvariant s₀ s) (hb : b ∈ s.alloc.live) :
    b.address % 4096 = 0 ∧ b.address < s₀.frames * 4096 := by
  obtain ⟨haligned, hlt, -⟩ := h.good.tracked b hb
  omega

end CpuInvariant

/-! ## The areas of a CPU -/

namespace CpuInvariant

variable {κ : Type} {s₀ : Pageframe} {s : CpuBoot κ} {cpu cpu' : κ} {m m' : CpuMemory}

section Context

variable (h : CpuInvariant s₀ s) (hframes : s₀.frames ≤ 2 ^ 40)

include h hframes

omit hframes in
private theorem disjoint_bytes {b b' : Block} (hb : b ∈ s.alloc.live) (hb' : b' ∈ s.alloc.live)
    (hapart : Disjoint b.frames b'.frames) : Disjoint b.bytes b'.bytes :=
  Block.disjoint_bytes (h.aligned hb).1 (h.aligned hb').1 hapart

end Context

end CpuInvariant

section Runs

variable {κ : Type} [DecidableEq κ] {s₀ : Pageframe} {actions : List (CpuBootAction κ)}
  {s : CpuBoot κ}

instance [Fintype κ] (s : CpuBoot κ) : (a : CpuBootAction κ) → Decidable (s.Allows a)
  | .enter _ => inferInstanceAs (Decidable (_ ∧ _))
  | .request _ => inferInstanceAs (Decidable (_ ∧ _))
  | .step _ => inferInstanceAs (Decidable (_ ∧ (_ → _)))
  | .other _ => inferInstanceAs (Decidable (_ ∧ _ ∧ _ ∧ ∀ cpu, ∀ b ∈ s.granted cpu, _))

instance [Fintype κ] (s : CpuBoot κ) : (a : CpuBootAction κ) → Decidable (s.Undisturbed a)
  | .enter _ | .request _ => inferInstanceAs (Decidable True)
  | .step cpu => inferInstanceAs (Decidable (ScansUndisturbed s.alloc (.step cpu)))
  | .other a => inferInstanceAs (Decidable (ScansUndisturbed s.alloc a))

end Runs

end VisualOS.Kernel
