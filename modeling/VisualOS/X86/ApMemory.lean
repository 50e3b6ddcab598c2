import Mathlib.Tactic
import VisualOS.Memory.BootMap
import VisualOS.Memory.PageframeOwnership

/-!
# The memory of the application processors

`local_apic_start_smp` requests one block for the contexts of all application processors (APs) and
a stack for each of them.  Other CPUs, among them the APs already started, which allocate their
own stacks in `cpu_allocate`, use the allocator in between.
-/

namespace VisualOS.Kernel

open Framework

/-- `sizeof(struct CPUContext)`, which is packed. -/
def sizeofCPUContext : Nat := 68

/-- `LOCAL_APIC_AP_CPU_CONTEXT_ALIGNMENT`. -/
def localApicApCpuContextAlignment : Nat := 16

/-- `LOCAL_APIC_AP_STACK_PAGES`. -/
def localApicApStackPages : Nat := 2

def cpuContextSize : Nat := roundUp sizeofCPUContext localApicApCpuContextAlignment

def apContextPages (processorsNum : Nat) : Nat :=
  nearestPage (cpuContextSize * ((processorsNum + 2 ^ 64 - 1) % 2 ^ 64) % 2 ^ 64)

def apStackSize : Nat := localApicApStackPages * 4096

/-- What one AP is given through the communicator. -/
structure ApMemory where
  context : Nat
  stackPtr : Nat
  deriving DecidableEq, Repr

inductive ApPhase
  | entry
  | loop
  | returned
  deriving DecidableEq, Repr

/-- `local_apic_start_smp` between its calls of the allocator.  `contexts` is what it requested
first, `processors` are the local APIC numbers still ahead, and `ai` is the number of APs
started. -/
structure ApStart where
  ledger : Owned
  phase : ApPhase
  contexts : Block
  processors : List (BitVec 8)
  started : List ApMemory

inductive ApAction
  | requestContexts
  | skip
  | start
  | other (a : OwnAction)
  | finish

namespace ApMemory

def contextBytes (m : ApMemory) : Set Nat := Set.Ico m.context (m.context + sizeofCPUContext)

def stackBytes (m : ApMemory) : Set Nat := Set.Ico (m.stackPtr - apStackSize) m.stackPtr

def bytes (m : ApMemory) : Set Nat := m.contextBytes ∪ m.stackBytes

def stackBlock (m : ApMemory) : Block := ⟨m.stackPtr - apStackSize, localApicApStackPages⟩

end ApMemory

def Block.bytes (b : Block) : Set Nat := Set.Ico b.address (b.address + b.pages * 4096)

namespace ApStart

/-- The blocks that are requested for the APs. -/
def held (s : ApStart) : List Block :=
  (if s.contexts.pages = 0 then [] else [s.contexts]) ++ s.started.map ApMemory.stackBlock

/-- The next AP's context, behind those of the APs started before. -/
def nextContext (s : ApStart) : Nat :=
  (s.contexts.address + s.started.length * cpuContextSize) % 2 ^ 64

end ApStart

def apStart (s₀ : Pageframe) (ids : List (BitVec 8)) : ApStart where
  ledger := ⟨s₀, []⟩
  phase := .entry
  contexts := ⟨0, 0⟩
  processors := ids
  started := []

/-- A request for no pages hands out nothing. -/
def handOutContexts (page pages : Nat) (live : List Block) : List Block :=
  if pages = 0 then live else handOut page pages live

/-- There are enough free frames, so no request that asks for some answers `NULL`.  Other CPUs
free only what they own. -/
inductive ApStep (bsp : BitVec 8) : ApStart → ApAction → ApStart → Prop
  | requestContexts {s : ApStart} {page : Nat} {t : Pageframe} (rounds : Nat) :
      s.phase = .entry →
      pageframeRequestPages rounds (apContextPages s.processors.length) s.ledger.allocator =
        some (page, t) →
      page ≠ 0 ∨ apContextPages s.processors.length = 0 →
      ApStep bsp s .requestContexts
        { s with
          ledger := ⟨t, handOutContexts page (apContextPages s.processors.length) s.ledger.live⟩
          phase := .loop
          contexts := ⟨page, apContextPages s.processors.length⟩ }
  | skip {s : ApStart} {rest : List (BitVec 8)} :
      s.phase = .loop → s.processors = bsp :: rest →
      ApStep bsp s .skip { s with processors := rest }
  | start {s : ApStart} {id : BitVec 8} {rest : List (BitVec 8)} {page : Nat} {t : Pageframe}
      (rounds : Nat) :
      s.phase = .loop → s.processors = id :: rest → id ≠ bsp →
      pageframeRequestPages rounds localApicApStackPages s.ledger.allocator = some (page, t) →
      page ≠ 0 →
      ApStep bsp s .start
        { s with
          ledger := ⟨t, handOut page localApicApStackPages s.ledger.live⟩
          processors := rest
          started := s.started ++ [⟨s.nextContext, (page + apStackSize) % 2 ^ 64⟩] }
  | other {s : ApStart} {a : OwnAction} {ledger : Owned} :
      s.phase ≠ .returned → (∀ b ∈ s.held, a ≠ .free b) → OwnStep s.ledger a ledger →
      ApStep bsp s (.other a) { s with ledger }
  | finish {s : ApStart} {t : Pageframe} :
      s.phase = .loop → s.processors = [] →
      pageframeFree s.contexts.address s.contexts.pages s.ledger.allocator = some t →
      ApStep bsp s .finish
        { s with ledger := ⟨t, s.ledger.live.erase s.contexts⟩, phase := .returned }

/-- The frames that the bytes of an AP lie in. -/
def ApMemory.frames (m : ApMemory) : Set Nat := {i | ∃ a ∈ m.bytes, a / 4096 = i}

/-! ## Pages and bytes -/

private theorem cpuContextSize_eq : cpuContextSize = 80 := by decide

private theorem apContextPages_eq {n : Nat} (hpos : 1 ≤ n) (hn : n ≤ 2 ^ 32) :
    apContextPages n = (80 * (n - 1) + 4095) / 4096 := by
  have hsub : (n + 2 ^ 64 - 1) % 2 ^ 64 = n - 1 := by omega
  rw [apContextPages, cpuContextSize_eq, hsub, Nat.mod_eq_of_lt (by omega),
    nearestPage_eq (by omega)]

private theorem stackTop_eq {r : Nat} (h : r < 2 ^ 40) :
    (r * 4096 + apStackSize) % 2 ^ 64 = r * 4096 + apStackSize := by
  apply Nat.mod_eq_of_lt
  unfold apStackSize localApicApStackPages
  omega

theorem Block.mem_frames {b : Block} {a : Nat} (haligned : b.address % 4096 = 0)
    (ha : a ∈ b.bytes) : a / 4096 ∈ b.frames := by
  simp only [Block.bytes, Block.frames, Set.mem_Ico] at ha ⊢
  omega

theorem Block.disjoint_bytes {b b' : Block} (haligned : b.address % 4096 = 0)
    (haligned' : b'.address % 4096 = 0) (h : Disjoint b.frames b'.frames) :
    Disjoint b.bytes b'.bytes := by
  rw [Set.disjoint_left] at h ⊢
  intro a ha ha'
  exact h (Block.mem_frames haligned ha) (Block.mem_frames haligned' ha')

/-! ## The invariant -/

private theorem OwnInvariant.congr {s₀ t : Pageframe} {c : Owned} (h : OwnInvariant s₀ c)
    (hsize : t.pageframemap.size = c.allocator.pageframemap.size)
    (hinUse : ∀ i, t.inUse i = c.allocator.inUse i) : OwnInvariant s₀ ⟨t, c.live⟩ := by
  refine ⟨hsize.trans h.size, h.aligned, h.disjoint, h.fresh, ?_⟩
  intro i hi
  rw [hinUse]
  exact h.marked i hi

private theorem OwnInvariant.step_requestContexts {s₀ t : Pageframe} {c : Owned} {page pages : Nat}
    (h : OwnInvariant s₀ c) (hframes : s₀.frames < 2 ^ 52) (hzero : s₀.inUse 0 = true)
    (hpages : pages ≤ 2 ^ 52) (hreq : RequestedPages pages c.allocator page t) :
    OwnInvariant s₀ ⟨t, handOutContexts page pages c.live⟩ := by
  rw [handOutContexts]
  split
  · rename_i hnone
    subst hnone
    cases hreq with
    | exhausted _ _ => exact h.unchanged rfl
    | @found r _ _ hlt _ hmarked =>
        have hnil : frameIndexes (r * 4096 % 2 ^ 64) 0 = [] := by
          rw [frameIndexes, Nat.add_zero, Nat.sub_eq_zero_of_le (Nat.mod_le _ _), List.range'_zero]
        rw [hnil] at hmarked
        apply h.congr hmarked.size
        intro i
        simpa using hmarked.inUse i
  · rename_i hsome
    exact h.step_requestPages hframes hzero (Nat.one_le_iff_ne_zero.mpr hsome) hpages hreq

/-- Before `local_apic_start_smp` returns. -/
structure ApInvariant (s₀ : Pageframe) (bsp : BitVec 8) (ids : List (BitVec 8)) (s : ApStart) :
    Prop where
  own : OwnInvariant s₀ s.ledger
  held : s.held.Subperm s.ledger.live
  entry : s.phase = .entry → s.processors = ids ∧ s.started = []
  pages : s.phase = .loop → s.contexts.pages = apContextPages ids.length
  count : s.started.length + (s.processors.filter (· ≠ bsp)).length =
    (ids.filter (· ≠ bsp)).length
  slot : ∀ k m, s.started[k]? = some m →
    m.context = (s.contexts.address + k * cpuContextSize) % 2 ^ 64 ∧ apStackSize ≤ m.stackPtr

namespace ApInvariant

variable {s₀ t : Pageframe} {bsp : BitVec 8} {ids : List (BitVec 8)} {s : ApStart}

private theorem initial (s₀ : Pageframe) (bsp : BitVec 8) (ids : List (BitVec 8)) :
    ApInvariant s₀ bsp ids (apStart s₀ ids) where
  own := .initial s₀
  held := List.nil_subperm
  entry := fun _ => ⟨rfl, rfl⟩
  pages := by simp [apStart]
  count := Nat.zero_add _
  slot := by simp [apStart]

private theorem requestContexts {page : Nat} (h : ApInvariant s₀ bsp ids s)
    (hframes : s₀.frames < 2 ^ 52) (hzero : s₀.inUse 0 = true) (hphase : s.phase = .entry)
    (hreq : RequestedPages (apContextPages s.processors.length) s.ledger.allocator page t)
    (hpage : page ≠ 0 ∨ apContextPages s.processors.length = 0) :
    ApInvariant s₀ bsp ids
      { s with
        ledger := ⟨t, handOutContexts page (apContextPages s.processors.length) s.ledger.live⟩
        phase := .loop
        contexts := ⟨page, apContextPages s.processors.length⟩ } := by
  obtain ⟨hprocessors, hstarted⟩ := h.entry hphase
  have hpages : apContextPages s.processors.length ≤ 2 ^ 52 :=
    (nearestPage_lt (Nat.mod_lt _ (by decide))).le
  apply ApInvariant.mk
  · exact h.own.step_requestContexts hframes hzero hpages hreq
  · by_cases hnone : apContextPages s.processors.length = 0
    · simp [ApStart.held, hstarted, hnone]
    · have hlive : handOutContexts page (apContextPages s.processors.length) s.ledger.live =
          ⟨page, apContextPages s.processors.length⟩ :: s.ledger.live := by
        rw [handOutContexts, if_neg hnone, handOut, if_neg (hpage.resolve_right hnone)]
      dsimp only
      rw [hlive]
      simp [ApStart.held, hstarted, hnone]
  · simp
  · intro _
    rw [hprocessors]
  · exact h.count
  · simp [hstarted]

private theorem skip {rest : List (BitVec 8)} (h : ApInvariant s₀ bsp ids s)
    (hphase : s.phase = .loop) (hprocessors : s.processors = bsp :: rest) :
    ApInvariant s₀ bsp ids { s with processors := rest } := by
  apply ApInvariant.mk
  · exact h.own
  · exact h.held
  · simp [hphase]
  · exact h.pages
  · have hcount := h.count
    rw [hprocessors, List.filter_cons_of_neg (by simp)] at hcount
    exact hcount
  · exact h.slot

private theorem start {id : BitVec 8} {rest : List (BitVec 8)} {page : Nat}
    (h : ApInvariant s₀ bsp ids s) (hframes : s₀.frames ≤ 2 ^ 40) (hzero : s₀.inUse 0 = true)
    (hphase : s.phase = .loop) (hprocessors : s.processors = id :: rest) (hid : id ≠ bsp)
    (hreq : RequestedPages localApicApStackPages s.ledger.allocator page t) (hpage : page ≠ 0) :
    ApInvariant s₀ bsp ids
      { s with
        ledger := ⟨t, handOut page localApicApStackPages s.ledger.live⟩
        processors := rest
        started := s.started ++ [⟨s.nextContext, (page + apStackSize) % 2 ^ 64⟩] } := by
  have hpages : localApicApStackPages ≤ 2 ^ 52 := by
    unfold localApicApStackPages
    omega
  have hown : OwnInvariant s₀ ⟨t, handOut page localApicApStackPages s.ledger.live⟩ := by
    apply h.own.step_requestPages _ hzero _ _ hreq
    · omega
    · decide
    · exact hpages
  rw [handOut, if_neg hpage] at hown ⊢
  -- The stack lies below `2 ^ 64`, so its top does not wrap around.
  obtain ⟨-, r, hr, haddress⟩ := hown.aligned _ List.mem_cons_self
  have htop : (page + apStackSize) % 2 ^ 64 = page + apStackSize := by
    change page = r * 4096 at haddress
    rw [haddress]
    exact stackTop_eq (hr.trans_le hframes)
  rw [htop]
  apply ApInvariant.mk
  · exact hown
  · have hheld : (s.held ++ [Block.mk page localApicApStackPages]).Subperm
        (Block.mk page localApicApStackPages :: s.ledger.live) :=
      (List.perm_append_singleton _ _).subperm.trans ((List.subperm_cons _).mpr h.held)
    simpa [ApStart.held, ApMemory.stackBlock] using hheld
  · simp [hphase]
  · exact h.pages
  · have hcount := h.count
    rw [hprocessors, List.filter_cons_of_pos (by simpa using hid), List.length_cons] at hcount
    dsimp only
    rw [List.length_append, List.length_singleton]
    omega
  · intro k m hm
    dsimp only at hm ⊢
    rcases Nat.lt_or_ge k s.started.length with hk | hk
    · rw [List.getElem?_append_left hk] at hm
      exact h.slot k m hm
    · rw [List.getElem?_append_right hk, List.getElem?_singleton] at hm
      split at hm
      · rename_i hlast
        rw [Option.some.injEq] at hm
        rw [← hm, show k = s.started.length by omega]
        exact ⟨rfl, Nat.le_add_left _ _⟩
      · exact absurd hm (by simp)

private theorem other {a : OwnAction} {ledger : Owned} (h : ApInvariant s₀ bsp ids s)
    (hframes : s₀.frames < 2 ^ 52) (hzero : s₀.inUse 0 = true) (hheld : ∀ b ∈ s.held, a ≠ .free b)
    (hstep : OwnStep s.ledger a ledger) : ApInvariant s₀ bsp ids { s with ledger } := by
  have hown := ownStep_invariant hframes hzero h.own hstep
  have hgrow : ∀ page pages, s.ledger.live.Subperm (handOut page pages s.ledger.live) := by
    intro page pages
    rw [handOut]
    split
    · exact List.Subperm.refl _
    · exact (List.sublist_cons_self _ _).subperm
  apply ApInvariant.mk
  · exact hown
  · cases hstep with
    | request _ => exact h.held.trans (hgrow _ _)
    | requestPages _ _ _ _ => exact h.held.trans (hgrow _ _)
    | @free block _ _ _ =>
        have hnot : block ∉ s.held := fun hmem => hheld block hmem rfl
        have herase := h.held.erase block
        rw [List.erase_of_not_mem hnot] at herase
        exact herase
  · exact h.entry
  · exact h.pages
  · exact h.count
  · exact h.slot

private theorem step {a : ApAction} {s' : ApStart} (h : ApInvariant s₀ bsp ids s)
    (hframes : s₀.frames ≤ 2 ^ 40) (hzero : s₀.inUse 0 = true) (hstep : ApStep bsp s a s') :
    s'.phase = .returned ∨ ApInvariant s₀ bsp ids s' := by
  cases hstep with
  | requestContexts rounds hphase hreq hpage =>
      exact .inr (h.requestContexts (by omega) hzero hphase
        (pageframeRequestPages_requested hreq) hpage)
  | skip hphase hprocessors => exact .inr (h.skip hphase hprocessors)
  | start rounds hphase hprocessors hid hreq hpage =>
      exact .inr (h.start hframes hzero hphase hprocessors hid
        (pageframeRequestPages_requested hreq) hpage)
  | other _ hheld hown => exact .inr (h.other (by omega) hzero hheld hown)
  | finish _ _ _ => exact .inl rfl

private theorem held_disjoint (h : ApInvariant s₀ bsp ids s) :
    s.held.Pairwise fun b b' => Disjoint b.frames b'.frames := by
  obtain ⟨l, hperm, hsub⟩ := h.held
  exact (hperm.pairwise_iff fun hd => hd.symm).mp (h.own.disjoint.sublist hsub)

private theorem mem_live {b : Block} (h : ApInvariant s₀ bsp ids s) (hb : b ∈ s.held) :
    b ∈ s.ledger.live := h.held.subset hb

private theorem aligned {b : Block} (h : ApInvariant s₀ bsp ids s) (hb : b ∈ s.held) :
    b.address % 4096 = 0 := by
  obtain ⟨-, r, -, haddress⟩ := h.own.aligned b (h.mem_live hb)
  rw [haddress]
  exact Nat.mul_mod_left r 4096

private theorem stackBlock_mem {m : ApMemory} (hm : m ∈ s.started) : m.stackBlock ∈ s.held :=
  List.mem_append_right _ (List.mem_map_of_mem hm)

private theorem stackBytes_eq {m : ApMemory} (h : ApInvariant s₀ bsp ids s) (hm : m ∈ s.started) :
    m.stackBytes = m.stackBlock.bytes := by
  obtain ⟨k, hk⟩ := List.mem_iff_getElem?.mp hm
  have htop := (h.slot k m hk).2
  have hend : m.stackPtr - apStackSize + localApicApStackPages * 4096 = m.stackPtr :=
    Nat.sub_add_cancel htop
  rw [ApMemory.stackBytes, Block.bytes, ApMemory.stackBlock, hend]

private theorem filter_length (hbsp : ids.count bsp = 1) :
    (ids.filter (· ≠ bsp)).length + 1 = ids.length := by
  have hcount := List.length_eq_countP_add_countP (· == bsp) (l := ids)
  rw [← List.count, hbsp] at hcount
  rw [hcount, ← List.countP_eq_length_filter, Nat.add_comm]
  simp [List.countP_eq_length_filter]

private theorem contexts_spec {m : ApMemory} {k : Nat} (h : ApInvariant s₀ bsp ids s)
    (hframes : s₀.frames ≤ 2 ^ 40) (hbsp : ids.count bsp = 1) (hids : ids.length ≤ 2 ^ 32)
    (hphase : s.phase = .loop) (hm : s.started[k]? = some m) :
    s.contexts ∈ s.held ∧ m.context = s.contexts.address + 80 * k ∧
      80 * (k + 1) ≤ s.contexts.pages * 4096 := by
  have hk : k < s.started.length := (List.getElem?_eq_some_iff.mp hm).1
  have hcount := h.count
  have hlength := filter_length hbsp
  have hpages := h.pages hphase
  rw [apContextPages_eq (by omega) hids] at hpages
  have hmem : s.contexts ∈ s.held := by
    apply List.mem_append_left
    rw [if_neg (by omega)]
    exact List.mem_singleton_self _
  obtain ⟨-, r, hr, haddress⟩ := h.own.aligned _ (h.mem_live hmem)
  have hcontext := (h.slot k m hm).1
  rw [cpuContextSize_eq, Nat.mod_eq_of_lt (by omega)] at hcontext
  refine ⟨hmem, ?_, ?_⟩
  · rw [hcontext, Nat.mul_comm]
  · omega

section Loop

variable (h : ApInvariant s₀ bsp ids s) (hframes : s₀.frames ≤ 2 ^ 40)
  (hbsp : ids.count bsp = 1) (hids : ids.length ≤ 2 ^ 32) (hphase : s.phase = .loop)

include h hframes hbsp hids hphase

private theorem contextBytes_subset {m : ApMemory} (hm : m ∈ s.started) :
    s.contexts ∈ s.held ∧ m.contextBytes ⊆ s.contexts.bytes := by
  obtain ⟨k, hk⟩ := List.mem_iff_getElem?.mp hm
  obtain ⟨hmem, hcontext, hend⟩ := h.contexts_spec hframes hbsp hids hphase hk
  refine ⟨hmem, ?_⟩
  intro a ha
  simp only [ApMemory.contextBytes, sizeofCPUContext, Block.bytes, Set.mem_Ico] at ha ⊢
  omega

private theorem contexts_disjoint {m m' : ApMemory} {k k' : Nat} (hlt : k < k')
    (hm : s.started[k]? = some m) (hm' : s.started[k']? = some m') :
    Disjoint m.contextBytes m'.contextBytes := by
  have hcontext := (h.contexts_spec hframes hbsp hids hphase hm).2.1
  have hcontext' := (h.contexts_spec hframes hbsp hids hphase hm').2.1
  rw [Set.disjoint_left]
  intro a ha ha'
  simp only [ApMemory.contextBytes, sizeofCPUContext, Set.mem_Ico] at ha ha'
  omega

private theorem context_stack_disjoint {m m' : ApMemory} (hm : m ∈ s.started)
    (hm' : m' ∈ s.started) : Disjoint m.contextBytes m'.stackBytes := by
  obtain ⟨hmem, hsubset⟩ := h.contextBytes_subset hframes hbsp hids hphase hm
  have hpages : s.contexts.pages ≠ 0 := by
    obtain ⟨k, hk⟩ := List.mem_iff_getElem?.mp hm
    have hend := (h.contexts_spec hframes hbsp hids hphase hk).2.2
    omega
  have hheld : s.held = s.contexts :: s.started.map ApMemory.stackBlock := by
    rw [ApStart.held, if_neg hpages]
    rfl
  have hframesDisjoint : Disjoint s.contexts.frames m'.stackBlock.frames := by
    have hpair := h.held_disjoint
    rw [hheld, List.pairwise_cons] at hpair
    exact hpair.1 _ (List.mem_map_of_mem hm')
  rw [h.stackBytes_eq hm']
  exact (Block.disjoint_bytes (h.aligned hmem) (h.aligned (stackBlock_mem hm'))
    hframesDisjoint).mono_left hsubset

omit hframes hbsp hids hphase in
private theorem stacks_disjoint {m m' : ApMemory} {k k' : Nat} (hlt : k < k')
    (hm : s.started[k]? = some m) (hm' : s.started[k']? = some m') :
    Disjoint m.stackBytes m'.stackBytes := by
  have hmem := List.mem_iff_getElem?.mpr ⟨k, hm⟩
  have hmem' := List.mem_iff_getElem?.mpr ⟨k', hm'⟩
  have hpair : (s.started.map ApMemory.stackBlock).Pairwise
      fun b b' => Disjoint b.frames b'.frames :=
    h.held_disjoint.sublist (List.sublist_append_right _ _)
  have hframesDisjoint : Disjoint m.stackBlock.frames m'.stackBlock.frames := by
    rw [List.pairwise_map] at hpair
    obtain ⟨hk, rfl⟩ := List.getElem?_eq_some_iff.mp hm
    obtain ⟨hk', rfl⟩ := List.getElem?_eq_some_iff.mp hm'
    exact List.pairwise_iff_getElem.mp hpair k k' hk hk' hlt
  rw [h.stackBytes_eq hmem, h.stackBytes_eq hmem']
  exact Block.disjoint_bytes (h.aligned (stackBlock_mem hmem)) (h.aligned (stackBlock_mem hmem'))
    hframesDisjoint

private theorem started_disjoint : s.started.Pairwise fun m m' => Disjoint m.bytes m'.bytes := by
  rw [List.pairwise_iff_getElem]
  intro k k' hk hk' hlt
  have hm : s.started[k]? = some s.started[k] := List.getElem?_eq_getElem hk
  have hm' : s.started[k']? = some s.started[k'] := List.getElem?_eq_getElem hk'
  have hmem := List.getElem_mem hk
  have hmem' := List.getElem_mem hk'
  rw [ApMemory.bytes, ApMemory.bytes, Set.disjoint_union_left, Set.disjoint_union_right,
    Set.disjoint_union_right]
  refine ⟨⟨?_, ?_⟩, ?_, ?_⟩
  · exact h.contexts_disjoint hframes hbsp hids hphase hlt hm hm'
  · exact h.context_stack_disjoint hframes hbsp hids hphase hmem hmem'
  · exact (h.context_stack_disjoint hframes hbsp hids hphase hmem' hmem).symm
  · exact h.stacks_disjoint hlt hm hm'

/-- The first AP's context is at the start of a frame that is free after the function. -/
theorem freed {m : ApMemory} (hm : s.started[0]? = some m)
    (hfree : pageframeFree s.contexts.address s.contexts.pages s.ledger.allocator = some t) :
    m.context / 4096 ∈ m.frames ∧ t.inUse (m.context / 4096) = false := by
  obtain ⟨hmem, hcontext, hend⟩ := h.contexts_spec hframes hbsp hids hphase hm
  obtain ⟨hpages, r, hr, haddress⟩ := h.own.aligned _ (h.mem_live hmem)
  constructor
  · refine ⟨m.context, .inl ?_, rfl⟩
    simp [ApMemory.contextBytes, sizeofCPUContext]
  · have hindex : m.context / 4096 ∈ frameIndexes s.contexts.address s.contexts.pages := by
      rw [mem_frameIndexes (by omega)]
      omega
    rw [(releaseFrames_released hfree).inUse]
    simp [hindex]

end Loop

end ApInvariant

section Runs

variable {s₀ : Pageframe} {bsp : BitVec 8} {ids : List (BitVec 8)} {actions : List ApAction}
  {s t : ApStart}

private theorem apRun_invariant (hframes : s₀.frames ≤ 2 ^ 40) (hzero : s₀.inUse 0 = true)
    (hrun : Run (ApStep bsp) (apStart s₀ ids) actions s) :
    s.phase = .returned ∨ ApInvariant s₀ bsp ids s := by
  have hstep : ∀ (s : ApStart) a t, (s.phase = .returned ∨ ApInvariant s₀ bsp ids s) →
      ApStep bsp s a t → t.phase = .returned ∨ ApInvariant s₀ bsp ids t := by
    rintro s a t (hreturned | h) hstep
    · cases hstep <;> simp_all
    · exact h.step hframes hzero hstep
  exact hrun.invariant hstep (.inr (.initial s₀ bsp ids))

/-- Physical addresses have 52 bits, and a MADT is shorter than `2 ^ 32` bytes.  The memory of
different APs is apart and inside what was requested for it, but the contexts are freed at the
end, so all of it stays in use only if there is no AP. -/
theorem ap_memory_owned_iff (hsize : s₀.pageframemap.size ≤ 2 ^ 37) (hzero : s₀.inUse 0 = true)
    (hbsp : ids.count bsp = 1) (hids : ids.length ≤ 2 ^ 32)
    (hrun : Run (ApStep bsp) (apStart s₀ ids) actions s) (hfinish : ApStep bsp s .finish t) :
    t.started.length + 1 = ids.length ∧
    t.started.Pairwise (fun m m' => Disjoint m.bytes m'.bytes) ∧
    (∀ m ∈ t.started,
      s.contexts ∈ s.ledger.live ∧ m.contextBytes ⊆ s.contexts.bytes ∧
      m.stackBlock ∈ s.ledger.live ∧ m.stackBytes ⊆ m.stackBlock.bytes) ∧
    ((∀ m ∈ t.started, ∀ i ∈ m.frames, t.ledger.allocator.inUse i = true) ↔ ids = [bsp]) := by
  have hframes : s₀.frames ≤ 2 ^ 40 := by
    rw [frames_eq_of_size (by omega)]
    omega
  cases hfinish with
  | finish hphase hprocessors hfree =>
      have h : ApInvariant s₀ bsp ids s := by
        apply (apRun_invariant hframes hzero hrun).resolve_left
        simp [hphase]
      have hcount := h.count
      rw [hprocessors, List.filter_nil, List.length_nil, Nat.add_zero] at hcount
      have hlength := ApInvariant.filter_length hbsp
      refine ⟨?_, h.started_disjoint hframes hbsp hids hphase, ?_, ?_⟩
      · exact (congrArg (· + 1) hcount).trans hlength
      · intro m hm
        obtain ⟨hmem, hsubset⟩ := h.contextBytes_subset hframes hbsp hids hphase hm
        exact ⟨h.mem_live hmem, hsubset, h.mem_live (ApInvariant.stackBlock_mem hm),
          (h.stackBytes_eq hm).subset⟩
      · constructor
        · intro hinUse
          dsimp only at hinUse
          cases hstarted : s.started with
          | nil =>
              rw [hstarted, List.length_nil] at hcount
              obtain ⟨id, hid⟩ := List.length_eq_one_iff.mp (show ids.length = 1 by omega)
              have hmem : bsp ∈ ids := List.count_pos_iff.mp (by omega)
              rw [hid, List.mem_singleton] at hmem
              rw [hid, hmem]
          | cons m rest =>
              obtain ⟨hframe, hfreed⟩ := h.freed hframes hbsp hids hphase
                (show s.started[0]? = some m by rw [hstarted]; rfl) hfree
              rw [hinUse m (by simp [hstarted]) _ hframe] at hfreed
              exact absurd hfreed (by simp)
        · rintro rfl m hm
          have hnil : s.started = [] := by
            rw [← List.length_eq_zero_iff, hcount]
            simp
          rw [hnil] at hm
          exact absurd hm List.not_mem_nil

/-- The BSP and one AP, with 7 free frames. -/
theorem ap_memory_owned_iff_two : ∃ s t, Run (ApStep 0) (apStart eightFrames [0, 1])
      [.requestContexts, .skip, .start] s ∧ ApStep 0 s .finish t ∧
    t.started = [⟨0x1000, 0x4000⟩] ∧
    ∃ m ∈ t.started, ∃ i ∈ m.frames, t.ledger.allocator.inUse i = false := by
  have hrun : ∃ s t, Run (ApStep 0) (apStart eightFrames [0, 1])
      [.requestContexts, .skip, .start] s ∧ ApStep 0 s .finish t ∧
      t.started = [⟨0x1000, 0x4000⟩] :=
    ⟨_, _, .cons (.requestContexts 2 rfl rfl (.inl (by decide))) (.cons (.skip rfl rfl)
      (.cons (.start 2 rfl rfl (by decide) rfl (by decide)) (.nil _))), .finish rfl rfl rfl, rfl⟩
  obtain ⟨s, t, hrun, hfinish, hstarted⟩ := hrun
  refine ⟨s, t, hrun, hfinish, hstarted, ?_⟩
  have howned := (ap_memory_owned_iff (by decide) (by decide) (by decide) (by decide) hrun
    hfinish).2.2.2
  by_contra hnot
  push Not at hnot
  have hall : ∀ m ∈ t.started, ∀ i ∈ m.frames, t.ledger.allocator.inUse i = true := by
    intro m hm i hi
    exact Bool.of_not_eq_false (hnot m hm i hi)
  exact absurd (howned.mp hall) (by decide)

/-- Afterwards the first request answers the frame that the AP's context lies in. -/
theorem ap_context_handed_out : ∃ s t u, Run (ApStep 0) (apStart eightFrames [0, 1])
      [.requestContexts, .skip, .start] s ∧ ApStep 0 s .finish t ∧
    t.started = [⟨0x1000, 0x4000⟩] ∧
    (¬∀ m ∈ t.started, ∀ i ∈ m.frames, t.ledger.allocator.inUse i = true) ∧
    pageframeRequest t.ledger.allocator = some (0x1000, u) := by
  refine ⟨_, _, _, .cons (.requestContexts 2 rfl rfl (.inl (by decide))) (.cons (.skip rfl rfl)
    (.cons (.start 2 rfl rfl (by decide) rfl (by decide)) (.nil _))), .finish rfl rfl rfl, rfl,
    ?_, rfl⟩
  intro hinUse
  have hcontext : (0x1000 : Nat) ∈ (ApMemory.mk 0x1000 0x4000).contextBytes := by
    simp [ApMemory.contextBytes, sizeofCPUContext]
  exact absurd (hinUse ⟨0x1000, 0x4000⟩ (List.mem_singleton_self _) 1 ⟨0x1000, .inl hcontext, rfl⟩)
    (by decide)

end Runs

end VisualOS.Kernel
