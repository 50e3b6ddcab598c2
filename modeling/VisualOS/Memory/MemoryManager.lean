import VisualOS.Framework.ByteLayout
import VisualOS.Memory.AddressSpace
import VisualOS.Memory.BootMap
import VisualOS.Memory.PageframeOwnership

/-!
# Page tables that come from the allocator

`paging_map_page` takes its tables from `pageframe_request`, the allocator that stacks, programs
and heaps are taken from as well, and the bitmap of the allocator lies in memory itself.  Everybody
who was handed a block may store what they like in it, one call at a time, and the page tables stay
what the mapping calls made them.
-/

namespace VisualOS.Kernel

open Framework

/-- The allocator, where its bitmap lies, and the words of the frames that hold no part of it. -/
structure MemoryManager where
  allocator : Pageframe
  buffer : Nat
  memory : BitVec 52 → BitVec 9 → BitVec 64

namespace MemoryManager

/-- The frame holds a part of the bitmap or the byte right behind it, which `bitmap_set` stores to
for the index `8 * size`. -/
def HoldsBitmap (m : MemoryManager) (frame : Nat) : Prop :=
  m.buffer / 4096 ≤ frame ∧ frame ≤ (m.buffer + m.allocator.pageframemap.size) / 4096

instance (m : MemoryManager) (frame : Nat) : Decidable (m.HoldsBitmap frame) :=
  inferInstanceAs (Decidable (_ ∧ _))

/-- A byte of physical memory, with the bitmap in its place. -/
def physicalByte (m : MemoryManager) (address : Nat) : BitVec 8 :=
  if m.buffer ≤ address ∧ address ≤ m.buffer + m.allocator.pageframemap.size then
    m.allocator.pageframemap.buffer (address - m.buffer)
  else
    let word := m.memory (BitVec.ofNat 52 (address / 4096)) (BitVec.ofNat 9 (address / 8))
    (word >>> (8 * (address % 8))).setWidth 8

def physical (m : MemoryManager) (frame : BitVec 52) (index : BitVec 9) : BitVec 64 :=
  if m.HoldsBitmap frame.toNat then
    BitVec.ofNat 64 (readLe m.physicalByte 8 (frame.toNat * 4096 + index.toNat * 8))
  else m.memory frame index

def read (m : MemoryManager) (table : BitVec 64) (index : BitVec 9) : BitVec 64 :=
  m.memory (pageNumber table) index

def write (m : MemoryManager) (table : BitVec 64) (index : BitVec 9) (entry : BitVec 64) :
    MemoryManager :=
  { m with memory := writeEntry m.memory (pageNumber table) index entry }

def zero (m : MemoryManager) (table : BitVec 64) : MemoryManager :=
  { m with memory := clearTable m.memory (pageNumber table) 0 }

def request (m : MemoryManager) : Option (BitVec 64 × MemoryManager) := do
  let (page, allocator) ← pageframeRequest m.allocator
  return (BitVec.ofNat 64 page, { m with allocator := allocator })

/-- One level of `paging_map_page`, with the call of `pageframe_request` that it makes. -/
def pagingNextTable (table : BitVec 64) (index : BitVec 9) (m : MemoryManager) :
    Option (BitVec 64 × MemoryManager) :=
  let entry := m.read table index
  if getBit entry PageDirectoryFlagBit.present.toNat = false then do
    let (next, m) ← m.request
    let m := m.zero next
    let entry := pagingSetEntryAddress entry (next >>> 12)
    let entry := entry ||| shiftedOne PageDirectoryFlagBit.present.toNat
    return (next, m.write table index entry)
  else some (pagingGetEntryAddress entry <<< 12, m)

def pagingMapPage (pagetableL4 virtualAddress physicalAddress : BitVec 64) (m : MemoryManager) :
    Option MemoryManager := do
  let indexes := pagingGetIndexes virtualAddress
  let (pagetableL3, m) ← pagingNextTable pagetableL4 indexes.L4_i m
  let (pagetableL2, m) ← pagingNextTable pagetableL3 indexes.L3_i m
  let (pagetableL1, m) ← pagingNextTable pagetableL2 indexes.L2_i m
  let entry := m.read pagetableL1 indexes.L1_i
  let entry := pagingSetEntryAddress entry (physicalAddress >>> 12)
  let entry := entry ||| shiftedOne PageDirectoryFlagBit.present.toNat
  return m.write pagetableL1 indexes.L1_i entry

/-- The memory, with given answers for the requests to come. -/
def paging (m : MemoryManager) (answers : List Nat) (requests : Nat) : Paging where
  memory := m.memory
  answers n := BitVec.ofNat 64 (answers.getD n 0)
  requests := requests

/-- The page tables, when no request is to come. -/
def tables (m : MemoryManager) : Paging := m.paging [] 0

/-- The page tables as they are in physical memory. -/
def physicalTables (m : MemoryManager) : Paging := { m.tables with memory := m.physical }

def pagingSetWritable (pagetableL4 virtualAddress pages : BitVec 64) (m : MemoryManager) :
    MemoryManager :=
  { m with memory :=
    (pagingSetAttribute pagetableL4 virtualAddress pages .writable true m.tables).memory }

/-- The first two statements of `paging_init`. -/
def pagingInitRoot (m : MemoryManager) : Option (BitVec 64 × MemoryManager) := do
  let (pagetableL4, m) ← m.request
  return (pagetableL4, m.zero pagetableL4)

end MemoryManager

/-! ## Successive requests -/

def RequestStep (s : Pageframe) (page : Nat) (t : Pageframe) : Prop :=
  pageframeRequest s = some (page, t)

/-- The frames that the search of `pageframe_request` has still before it. -/
def Pageframe.ahead (s : Pageframe) : Finset Nat :=
  (Finset.range s.frames).filter fun i => s.currentIndex ≤ i ∧ s.inUse i = false

/-- The block of one frame that a request hands out. -/
def oneFrame (page : Nat) : Block := ⟨page, 1⟩

section Requests

variable {s s₀ t : Pageframe} {page : Nat} {pages : List Nat} {live : List Block}

private theorem Requested.mutex (h : Requested s page t) : t.mutex = s.mutex := by
  cases h with
  | exhausted _ => rfl
  | found _ _ _ _ hmarked => exact hmarked.mutex

private theorem Requested.size (h : Requested s page t) :
    t.pageframemap.size = s.pageframemap.size := by
  cases h with
  | exhausted _ => rfl
  | found _ _ _ _ hmarked => exact hmarked.size

private theorem Requested.inUse_mono (h : Requested s page t) {i : Nat} (hi : s.inUse i = true) :
    t.inUse i = true := by
  cases h with
  | exhausted _ => exact hi
  | found _ _ _ _ hmarked =>
      rw [hmarked.inUse]
      simp [hi]

private theorem Requested.ahead (h : Requested s page t) (hzero : s.inUse 0 = true)
    (hahead : 0 < s.ahead.card) : page ≠ 0 ∧ s.ahead.card = t.ahead.card + 1 := by
  cases h with
  | exhausted hall =>
      obtain ⟨i, hi⟩ := Finset.card_pos.mp hahead
      simp only [Pageframe.ahead, Finset.mem_filter, Finset.mem_range] at hi
      rw [hall i hi.2.1 hi.1] at hi
      exact absurd hi.2.2 (by decide)
  | @found r _ hle hlt hfree hall hmarked =>
      have hr : r ≠ 0 := by
        rintro rfl
        exact absurd (hzero.symm.trans hfree) (by decide)
      have hmem : r ∈ s.ahead := by
        simp [Pageframe.ahead, hle, hlt, hfree]
      have hrest : t.ahead = s.ahead.erase r := by
        ext i
        have hframes : t.frames = s.frames := frames_of_size hmarked.size
        have hindex : t.currentIndex = r + 1 := hmarked.currentIndex
        have hbits : t.inUse i = (s.inUse i || (decide (i ∈ [r]) && decide (i ≤ s.frames))) :=
          hmarked.inUse i
        simp only [Pageframe.ahead, Finset.mem_erase, Finset.mem_filter, Finset.mem_range, hframes,
          hindex, hbits]
        by_cases hir : i = r
        · subst hir
          simp
        · have hskip : s.inUse i = false → s.currentIndex ≤ i → r ≤ i := by
            intro hi hci
            by_contra hlt
            exact absurd ((hall i hci (by omega)).symm.trans hi) (by decide)
          simp only [List.mem_singleton, hir, decide_false, Bool.false_and, Bool.or_false]
          constructor
          · rintro ⟨hi, hri, hused⟩
            exact ⟨hir, hi, by omega, hused⟩
          · rintro ⟨-, hi, hci, hused⟩
            have := hskip hused hci
            exact ⟨hi, by omega, hused⟩
      refine ⟨by omega, ?_⟩
      rw [hrest, Finset.card_erase_of_mem hmem]
      omega

private theorem requests_answered (hrun : Run RequestStep s pages t) (hframes : s.frames < 2 ^ 52)
    (hzero : s.inUse 0 = true) (hahead : pages.length ≤ s.ahead.card) :
    0 ∉ pages ∧ t.mutex = s.mutex := by
  induction hrun with
  | nil => simp
  | @cons s u t page pages hstep _ ih =>
      rw [List.length_cons] at hahead
      have hreq := pageframeRequest_requested hframes hstep
      obtain ⟨hpage, hcard⟩ := hreq.ahead hzero (by omega)
      obtain ⟨hrest, hmutex⟩ := ih (frames_of_size hreq.size ▸ hframes) (hreq.inUse_mono hzero)
        (by omega)
      exact ⟨by simp [hrest, hpage.symm], hmutex.trans hreq.mutex⟩

private theorem OwnInvariant.requests (hrun : Run RequestStep s pages t) (hnull : 0 ∉ pages)
    (hframes : s₀.frames < 2 ^ 52) (hzero : s₀.inUse 0 = true)
    (h : OwnInvariant s₀ ⟨s, live⟩) :
    OwnInvariant s₀ ⟨t, (pages.map oneFrame).reverse ++ live⟩ := by
  induction hrun generalizing live with
  | nil => exact h
  | @cons s u t page pages hstep _ ih =>
      simp only [List.mem_cons, not_or] at hnull
      have hnext := h.step_request hzero
        (pageframeRequest_requested (h.frames_eq ▸ hframes) hstep)
      rw [handOut, if_neg (Ne.symm hnull.1)] at hnext
      have := ih hnull.2 hnext
      simpa [oneFrame] using this

private theorem OwnInvariant.perm {live' : List Block} (h : OwnInvariant s₀ ⟨s, live⟩)
    (hperm : live.Perm live') : OwnInvariant s₀ ⟨s, live'⟩ where
  size := h.size
  aligned b hb := h.aligned b (hperm.mem_iff.mpr hb)
  disjoint := (hperm.pairwise_iff fun h => h.symm).mp h.disjoint
  fresh b hb := h.fresh b (hperm.mem_iff.mpr hb)
  marked i hi := by
    rw [h.marked i hi]
    simp only [hperm.mem_iff]

end Requests

/-! ## Mapping a page with the allocator -/

namespace MemoryManager

variable {m m' : MemoryManager} {table next root virtualAddress physicalAddress : BitVec 64}
  {index : BitVec 9}

private theorem request_eq_some : m.request = some (next, m') ↔
    ∃ page, RequestStep m.allocator page m'.allocator ∧ next = BitVec.ofNat 64 page ∧
      m'.memory = m.memory ∧ m'.buffer = m.buffer := by
  simp only [request, RequestStep, Option.bind_eq_bind, Option.bind_eq_some_iff, Option.pure_def,
    Option.some.injEq, Prod.exists, Prod.mk.injEq]
  constructor
  · rintro ⟨page, allocator, hreq, rfl, rfl⟩
    exact ⟨page, hreq, rfl, rfl, rfl⟩
  · rintro ⟨page, hreq, rfl, hmemory, hbuffer⟩
    exact ⟨page, m'.allocator, hreq, rfl, by rw [← hmemory, ← hbuffer]⟩

private theorem getD_between (before after : List Nat) (page : Nat) :
    (before ++ [page] ++ after).getD before.length 0 = page := by
  simp

private theorem pagingNextTable_answered (h : m.pagingNextTable table index = some (next, m')) :
    m'.buffer = m.buffer ∧
    ∃ pages, pages.length ≤ 1 ∧ Run RequestStep m.allocator pages m'.allocator ∧
      ∀ before after, Kernel.pagingNextTable table index
          (m.paging (before ++ pages ++ after) before.length) =
        (next, m'.paging (before ++ pages ++ after) (before ++ pages).length) := by
  rw [pagingNextTable] at h
  by_cases hpresent : getBit (m.read table index) PageDirectoryFlagBit.present.toNat = false
  · rw [if_pos hpresent] at h
    simp only [Option.bind_eq_bind, Option.bind_eq_some_iff, Option.pure_def, Option.some.injEq,
      Prod.exists, Prod.mk.injEq] at h
    obtain ⟨_, u, hreq, rfl, rfl⟩ := h
    obtain ⟨page, hstep, rfl, hmemory, hbuffer⟩ := request_eq_some.mp hreq
    refine ⟨hbuffer, [page], le_rfl, .cons hstep (.nil _), ?_⟩
    intro before after
    have hread : (m.paging (before ++ [page] ++ after) before.length).read table index =
        m.read table index := rfl
    rw [Kernel.pagingNextTable, hread, if_pos hpresent]
    simp only [Paging.request, paging, Paging.zero, Paging.write, zero, write, hmemory,
      getD_between, List.length_append, List.length_singleton]
  · rw [if_neg hpresent, Option.some.injEq, Prod.mk.injEq] at h
    obtain ⟨rfl, rfl⟩ := h
    refine ⟨rfl, [], Nat.zero_le 1, .nil _, ?_⟩
    intro before after
    have hread : (m.paging (before ++ [] ++ after) before.length).read table index =
        m.read table index := rfl
    rw [Kernel.pagingNextTable, hread, if_neg hpresent, List.append_nil]

/-- The whole call is the one with prescribed answers, for the answers that the allocator gives. -/
theorem pagingMapPage_answered
    (h : m.pagingMapPage root virtualAddress physicalAddress = some m') :
    m'.buffer = m.buffer ∧ ∃ pages, pages.length ≤ 3 ∧ Run RequestStep m.allocator pages m'.allocator ∧
      Kernel.pagingMapPage root virtualAddress physicalAddress (m.paging pages 0) =
        m'.paging pages pages.length := by
  simp only [pagingMapPage, Option.bind_eq_bind, Option.bind_eq_some_iff, Option.pure_def,
    Option.some.injEq, Prod.exists] at h
  obtain ⟨pagetableL3, m₃, h₃, pagetableL2, m₂, h₂, pagetableL1, m₁, h₁, rfl⟩ := h
  obtain ⟨hbuffer₃, pages₃, hlen₃, hrun₃, heq₃⟩ := pagingNextTable_answered h₃
  obtain ⟨hbuffer₂, pages₂, hlen₂, hrun₂, heq₂⟩ := pagingNextTable_answered h₂
  obtain ⟨hbuffer₁, pages₁, hlen₁, hrun₁, heq₁⟩ := pagingNextTable_answered h₁
  refine ⟨hbuffer₁.trans (hbuffer₂.trans hbuffer₃), pages₃ ++ pages₂ ++ pages₁, ?_,
    (hrun₃.append hrun₂).append hrun₁, ?_⟩
  · simp only [List.length_append]
    omega
  · have hfirst := heq₃ [] (pages₂ ++ pages₁)
    have hsecond := heq₂ pages₃ pages₁
    have hthird := heq₁ (pages₃ ++ pages₂) []
    simp only [List.nil_append, List.append_nil, List.length_nil, ← List.append_assoc]
      at hfirst hsecond hthird
    rw [Kernel.pagingMapPage]
    simp only [hfirst, hsecond, hthird]
    rfl

end MemoryManager

/-! ## Everybody on one memory -/

/-- The manager, and the blocks that others than the page tables hold. -/
structure Managed extends MemoryManager where
  live : List Block

inductive ManagerAction
  | own (action : OwnAction)
  | store (frame : BitVec 52) (index : BitVec 9) (word : BitVec 64)
  | mapPage (virtualAddress physicalAddress : BitVec 64)
  | setWritable (virtualAddress pages : BitVec 64)

/-- Frames that code may store to: those that were in use when the allocator started with `s₀`,
those that it does not track, and those of the blocks handed out, but none that holds the bitmap. -/
def Storable (s₀ : Pageframe) (c : Managed) (frame : Nat) : Prop :=
  ¬c.HoldsBitmap frame ∧
    (s₀.inUse frame = true ∨ s₀.frames ≤ frame ∨ ∃ b ∈ c.live, frame ∈ b.frames)

/-- One request, one return of a block that is held, one store, or one call on the page tables.
A mapping finds the frames it may need ahead of the search. -/
inductive ManagerStep (s₀ : Pageframe) (root : BitVec 64) :
    Managed → ManagerAction → Managed → Prop
  | own {c : Managed} {a : OwnAction} {d : Owned} :
      OwnStep ⟨c.allocator, c.live⟩ a d →
      ManagerStep s₀ root c (.own a) ⟨⟨d.allocator, c.buffer, c.memory⟩, d.live⟩
  | store {c : Managed} {frame : BitVec 52} {index : BitVec 9} {word : BitVec 64} :
      Storable s₀ c frame.toNat →
      ManagerStep s₀ root c (.store frame index word)
        ⟨⟨c.allocator, c.buffer, writeEntry c.memory frame index word⟩, c.live⟩
  | mapPage {c : Managed} {virtualAddress physicalAddress : BitVec 64} {m : MemoryManager} :
      3 ≤ c.allocator.ahead.card →
      c.toMemoryManager.pagingMapPage root virtualAddress physicalAddress = some m →
      ManagerStep s₀ root c (.mapPage virtualAddress physicalAddress) ⟨m, c.live⟩
  | setWritable {c : Managed} {virtualAddress pages : BitVec 64} :
      (∀ i < pages.toNat, ∃ page,
        translate c.memory root (virtualAddress + BitVec.ofNat 64 i * 4096#64) = some page) →
      ManagerStep s₀ root c (.setWritable virtualAddress pages)
        ⟨c.toMemoryManager.pagingSetWritable root virtualAddress pages, c.live⟩

/-- What an action means for the address space: only the mapping calls mean anything. -/
def AddressSpace.apply (space : AddressSpace) : ManagerAction → AddressSpace
  | .own _ => space
  | .store _ _ _ => space
  | .mapPage virtualAddress physicalAddress => space.map virtualAddress physicalAddress
  | .setWritable virtualAddress pages => space.grant virtualAddress pages

/-- The tables lie in frames of their own, which the ledger lists behind the blocks of others. -/
structure TablesHeld (s₀ : Pageframe) (root : BitVec 64) (c : Managed) (held : List Block) :
    Prop where
  ledger : OwnInvariant s₀ ⟨c.allocator, c.live ++ held⟩
  single : ∀ b ∈ held, b.pages = 1
  tables : ∀ path k, path.length ≤ 3 → c.tables.table root path = some k →
    ∃ b ∈ held, k.toNat ∈ b.frames

structure ManagerInvariant (s₀ : Pageframe) (root : BitVec 64) (space : AddressSpace)
    (c : Managed) : Prop where
  held : ∃ held, TablesHeld s₀ root c held
  space : Implements root space c.tables
  bitmap : ∀ frame < s₀.frames, c.HoldsBitmap frame → s₀.inUse frame = true
  mutex : c.allocator.mutex = s₀.mutex

private theorem OwnStep.mutex {c d : Owned} {a : OwnAction} (h : OwnStep c a d)
    (hframes : c.allocator.frames < 2 ^ 52) : d.allocator.mutex = c.allocator.mutex := by
  cases h with
  | request hreq => exact (pageframeRequest_requested hframes hreq).mutex
  | requestPages rounds _ _ hreq =>
      cases pageframeRequestPages_requested hreq with
      | exhausted _ _ => rfl
      | found _ _ _ hmarked => exact hmarked.mutex
  | free _ hfree => exact (releaseFrames_released hfree).mutex

private theorem OwnStep.frame {c d : Owned} {a : OwnAction} (h : OwnStep c a d)
    (held : List Block) :
    OwnStep ⟨c.allocator, c.live ++ held⟩ a ⟨d.allocator, d.live ++ held⟩ := by
  have hhand : ∀ page pages, handOut page pages c.live ++ held =
      handOut page pages (c.live ++ held) := by
    intro page pages
    simp only [handOut]
    split <;> rfl
  cases h with
  | request hreq =>
      rw [hhand]
      exact .request hreq
  | requestPages rounds hpos hpages hreq =>
      rw [hhand]
      exact .requestPages rounds hpos hpages hreq
  | free hmem hfree =>
      rw [← List.erase_append_left held hmem]
      exact .free (List.mem_append_left held hmem) hfree

private theorem Implements.congr {root : BitVec 64} {space : AddressSpace} {s t : Paging}
    (h : Implements root space s) (hmemory : t.memory = s.memory) : Implements root space t := by
  obtain ⟨memory, answers, requests⟩ := s
  obtain ⟨memory', answers', requests'⟩ := t
  obtain rfl : memory' = memory := hmemory
  exact ⟨h.tree, h.target, h.writes⟩

private theorem Implements.unchanged {root : BitVec 64} {space : AddressSpace} {s t : Paging}
    (h : Implements root space s)
    (hsame : ∀ path k, path.length ≤ 3 → s.table root path = some k → t.memory k = s.memory k) :
    Implements root space t := by
  have htable : ∀ path, path.length ≤ 4 → t.table root path = s.table root path :=
    fun path hpath => descend_unchanged hsame hpath
  have hentry : ∀ path index, path.length ≤ 3 →
      t.entry root path index = s.entry root path index := by
    intro path index hpath
    rw [Paging.entry_eq, Paging.entry_eq, htable path (by omega)]
    cases hk : s.table root path with
    | none => rfl
    | some k => rw [Option.map_some, Option.map_some, hsame path k hpath hk]
  refine ⟨⟨?_, ?_⟩, ?_, ?_⟩
  · intro p q k hp hq hkp hkq
    rw [← Paging.table, htable p (by omega)] at hkp
    rw [← Paging.table, htable q (by omega)] at hkq
    exact h.tree.1 p q k hp hq hkp hkq
  · intro path index entry hpath he
    rw [hentry path index hpath.le] at he
    exact h.tree.2 path index entry hpath he
  · intro address
    rw [← h.target]
    exact htable (walkIndexes address) (by simp [walkIndexes])
  · intro path index hpath
    rw [← h.writes path index hpath, Paging.Writes, Paging.Writes, hentry path index hpath]

private theorem OwnInvariant.answer {s₀ t : Pageframe} {pages : List Nat} {live : List Block}
    (hgrant : OwnInvariant s₀ ⟨t, (pages.map oneFrame).reverse ++ live⟩)
    (hframes : s₀.frames ≤ 2 ^ 40) (m : MemoryManager) {n : Nat} (hn : n < pages.length) :
    IsFrameAddress ((m.paging pages 0).answers n) ∧
      (pageNumber ((m.paging pages 0).answers n)).toNat ∈ (oneFrame pages[n]).frames := by
  have hmem : oneFrame pages[n] ∈ (pages.map oneFrame).reverse ++ live := by
    simp only [List.mem_append, List.mem_reverse, List.mem_map]
    exact .inl ⟨pages[n], List.getElem_mem hn, rfl⟩
  obtain ⟨-, r, hr, haddress⟩ := hgrant.aligned _ hmem
  have haddress : pages[n] = r * 4096 := haddress
  have hvalue : ((m.paging pages 0).answers n).toNat = r * 4096 := by
    simp only [MemoryManager.paging, List.getD_eq_getElem?_getD, List.getElem?_eq_getElem hn,
      Option.getD_some, haddress, BitVec.toNat_ofNat]
    omega
  apply And.intro
  · exact ⟨by omega, by omega⟩
  · rw [pageNumber_toNat, hvalue, oneFrame, haddress, mem_frames_mul]
    omega

namespace TablesHeld

variable {s₀ t : Pageframe} {root : BitVec 64} {c : Managed} {held : List Block} {pages : List Nat}

/-- A table lies in a frame that was free at first and is in no one else's block. -/
theorem table_apart (h : TablesHeld s₀ root c held) {path : List (BitVec 9)} {k : BitVec 52}
    (hpath : path.length ≤ 3) (hk : c.tables.table root path = some k) :
    s₀.inUse k.toNat = false ∧ k.toNat < s₀.frames ∧ ∀ b ∈ c.live, k.toNat ∉ b.frames := by
  obtain ⟨b, hb, hkb⟩ := h.tables path k hpath hk
  have hmem : b ∈ c.live ++ held := List.mem_append_right c.live hb
  refine ⟨h.ledger.fresh b hmem _ hkb, ?_, ?_⟩
  · obtain ⟨-, r, hr, haddress⟩ := h.ledger.aligned b hmem
    simp only [Block.frames, haddress, h.single b hb, Set.mem_Ico] at hkb
    omega
  · intro b' hb' hkb'
    have hapart := (List.pairwise_append.mp h.ledger.disjoint).2.2 b' hb' b hb
    exact Set.disjoint_left.mp hapart hkb' hkb

private theorem not_storable (h : TablesHeld s₀ root c held) {path : List (BitVec 9)}
    {k : BitVec 52} (hpath : path.length ≤ 3) (hk : c.tables.table root path = some k) :
    ¬Storable s₀ c k.toNat := by
  obtain ⟨hfresh, hlt, hothers⟩ := h.table_apart hpath hk
  rintro ⟨-, hused | hbeyond | ⟨b, hb, hkb⟩⟩
  · rw [hfresh] at hused
    exact Bool.false_ne_true hused
  · omega
  · exact hothers b hb hkb

private theorem inUse (h : TablesHeld s₀ root c held) {path : List (BitVec 9)} {k : BitVec 52}
    (hpath : path.length ≤ 3) (hk : c.tables.table root path = some k) :
    c.allocator.inUse k.toNat = true := by
  obtain ⟨b, hb, hkb⟩ := h.tables path k hpath hk
  have hlt := (h.table_apart hpath hk).2.1
  exact (h.ledger.marked _ hlt.le).mpr (.inr ⟨b, List.mem_append_right c.live hb, hkb⟩)

private theorem freshAnswers (h : TablesHeld s₀ root c held) (hframes : s₀.frames ≤ 2 ^ 40)
    (hgrant : OwnInvariant s₀ ⟨t, (pages.map oneFrame).reverse ++ (c.live ++ held)⟩) :
    (c.paging pages 0).FreshAnswers root pages.length := by
  obtain ⟨hnew, -, hapart⟩ := List.pairwise_append.mp hgrant.disjoint
  rw [List.pairwise_reverse, List.pairwise_map, List.pairwise_iff_getElem] at hnew
  refine ⟨?_, ?_, ?_⟩
  · intro n _ hn
    exact (hgrant.answer hframes c.toMemoryManager hn).1
  · intro n _ hn path hpath hk
    obtain ⟨b, hb, hkb⟩ := h.tables path _ hpath hk
    have hmem : oneFrame pages[n] ∈ (pages.map oneFrame).reverse := by
      simp only [List.mem_reverse, List.mem_map]
      exact ⟨pages[n], List.getElem_mem hn, rfl⟩
    have hframe := (hgrant.answer hframes c.toMemoryManager hn).2
    exact Set.disjoint_left.mp (hapart _ hmem b (List.mem_append_right c.live hb)) hframe hkb
  · intro m n _ hmn hn heq
    have hframe := (hgrant.answer hframes c.toMemoryManager hn).2
    have hframe' := (hgrant.answer hframes c.toMemoryManager (hmn.trans hn)).2
    rw [heq] at hframe'
    exact Set.disjoint_left.mp (hnew m n (hmn.trans hn) hn hmn) hframe hframe'

end TablesHeld

namespace ManagerInvariant

variable {s₀ : Pageframe} {root : BitVec 64} {space : AddressSpace} {c d : Managed}

private theorem bitmap_of (h : ManagerInvariant s₀ root space c) (hbuffer : d.buffer = c.buffer)
    (hsize : d.allocator.pageframemap.size = c.allocator.pageframemap.size) :
    ∀ frame < s₀.frames, d.HoldsBitmap frame → s₀.inUse frame = true := by
  intro frame hframe hholds
  rw [MemoryManager.HoldsBitmap, hbuffer, hsize] at hholds
  exact h.bitmap frame hframe hholds

private theorem table_not_bitmap (h : ManagerInvariant s₀ root space c) {path : List (BitVec 9)}
    {k : BitVec 52} (hpath : path.length ≤ 3) (hk : c.tables.table root path = some k) :
    ¬c.HoldsBitmap k.toNat := by
  intro hholds
  obtain ⟨held, hheld⟩ := h.held
  obtain ⟨hfresh, hlt, -⟩ := hheld.table_apart hpath hk
  rw [h.bitmap _ hlt hholds] at hfresh
  exact Bool.false_ne_true hfresh.symm

private theorem physical (h : ManagerInvariant s₀ root space c) :
    Implements root space c.physicalTables := by
  apply h.space.unchanged
  intro path k hpath hk
  funext index
  exact if_neg (h.table_not_bitmap hpath hk)

private theorem own (h : ManagerInvariant s₀ root space c) (hframes : s₀.frames ≤ 2 ^ 40)
    (hzero : s₀.inUse 0 = true) {a : OwnAction} {d : Owned}
    (hstep : OwnStep ⟨c.allocator, c.live⟩ a d) :
    ManagerInvariant s₀ root space ⟨⟨d.allocator, c.buffer, c.memory⟩, d.live⟩ := by
  obtain ⟨held, hheld⟩ := h.held
  have hledger := ownStep_invariant (by omega) hzero hheld.ledger (hstep.frame held)
  have hbound : c.allocator.frames < 2 ^ 52 := hheld.ledger.frames_eq.trans_lt (by omega)
  have hmutex := hstep.mutex hbound
  have hsize : d.allocator.pageframemap.size = c.allocator.pageframemap.size :=
    hledger.size.trans hheld.ledger.size.symm
  exact ⟨⟨held, hledger, hheld.single, hheld.tables⟩, h.space, h.bitmap_of rfl hsize,
    hmutex.trans h.mutex⟩

private theorem store (h : ManagerInvariant s₀ root space c) {frame : BitVec 52} (index : BitVec 9)
    (word : BitVec 64) (hframe : Storable s₀ c frame.toNat) :
    ManagerInvariant s₀ root space
      ⟨⟨c.allocator, c.buffer, writeEntry c.memory frame index word⟩, c.live⟩ := by
  obtain ⟨held, hheld⟩ := h.held
  have hsame : ∀ path k, path.length ≤ 3 → c.tables.table root path = some k →
      writeEntry c.memory frame index word k = c.memory k := by
    intro path k hpath hk
    have hne : k ≠ frame := by
      rintro rfl
      exact hheld.not_storable hpath hk hframe
    funext j
    exact writeEntry_other fun heq => hne heq.1
  refine ⟨⟨held, hheld.ledger, hheld.single, ?_⟩, h.space.unchanged hsame, h.bitmap, h.mutex⟩
  intro path k hpath hk
  have htable : descend entryTarget (writeEntry c.memory frame index word) (pageNumber root) path =
      c.tables.table root path := descend_unchanged hsame (by omega)
  exact hheld.tables path k hpath (htable.symm.trans hk)

private theorem mapPage (h : ManagerInvariant s₀ root space c) (hframes : s₀.frames ≤ 2 ^ 40)
    (hzero : s₀.inUse 0 = true) {virtualAddress physicalAddress : BitVec 64} {m : MemoryManager}
    (hahead : 3 ≤ c.allocator.ahead.card)
    (hmap : c.toMemoryManager.pagingMapPage root virtualAddress physicalAddress = some m) :
    ManagerInvariant s₀ root (space.map virtualAddress physicalAddress) ⟨m, c.live⟩ := by
  obtain ⟨held, hheld⟩ := h.held
  obtain ⟨hbuffer, pages, hlength, hrun, hresult⟩ := MemoryManager.pagingMapPage_answered hmap
  have hbound : c.allocator.frames < 2 ^ 52 := hheld.ledger.frames_eq.trans_lt (by omega)
  obtain ⟨hnull, hmutex⟩ := requests_answered hrun hbound (hheld.ledger.frame_zero hzero)
    (hlength.trans hahead)
  have hgrant := hheld.ledger.requests hrun hnull (by omega) hzero
  have hfresh : (c.paging pages 0).FreshAnswers root
      (pagingMapPage root virtualAddress physicalAddress (c.paging pages 0)).requests := by
    rw [hresult]
    exact hheld.freshAnswers hframes hgrant
  have hspace : Implements root space (c.paging pages 0) := h.space.congr rfl
  have hextends := (pagingMapPage_linked hspace.tree.1 hfresh).1
  have hmapped := hspace.mapPage hfresh
  rw [hresult] at hextends hmapped
  have hsize : m.allocator.pageframemap.size = c.allocator.pageframemap.size :=
    hgrant.size.trans hheld.ledger.size.symm
  refine ⟨⟨pages.map oneFrame ++ held, ?_, ?_, ?_⟩, hmapped.congr rfl, h.bitmap_of hbuffer hsize,
    hmutex.trans h.mutex⟩
  · apply hgrant.perm
    rw [← List.append_assoc, ← List.append_assoc]
    apply List.Perm.append_right
    exact ((List.reverse_perm _).append_right _).trans List.perm_append_comm
  · intro b hb
    simp only [List.mem_append, List.mem_map] at hb
    rcases hb with ⟨page, -, rfl⟩ | hb
    · rfl
    · exact hheld.single b hb
  · intro path k hpath hk
    rcases hextends.added path k hpath hk with hold | ⟨n, -, hn, rfl⟩
    · obtain ⟨b, hb, hkb⟩ := hheld.tables path k hpath hold
      exact ⟨b, List.mem_append_right _ hb, hkb⟩
    · refine ⟨oneFrame pages[n], ?_, (hgrant.answer hframes c.toMemoryManager hn).2⟩
      simp only [List.mem_append, List.mem_map]
      exact .inl ⟨pages[n], List.getElem_mem hn, rfl⟩

private theorem setWritable (h : ManagerInvariant s₀ root space c)
    {virtualAddress pages : BitVec 64} (hmapped : ∀ i < pages.toNat, ∃ page,
      translate c.memory root (virtualAddress + BitVec.ofNat 64 i * 4096#64) = some page) :
    ManagerInvariant s₀ root (space.grant virtualAddress pages)
      ⟨c.toMemoryManager.pagingSetWritable root virtualAddress pages, c.live⟩ := by
  obtain ⟨held, hheld⟩ := h.held
  have hallowed := pagingSetAttribute_allowed virtualAddress pages h.space.tree.1 hmapped
  refine ⟨⟨held, hheld.ledger, hheld.single, ?_⟩, (h.space.setWritable hmapped).congr rfl, h.bitmap,
    h.mutex⟩
  intro path k hpath hk
  exact hheld.tables path k hpath ((hallowed.tables path).symm.trans hk)

private theorem step (h : ManagerInvariant s₀ root space c) (hframes : s₀.frames ≤ 2 ^ 40)
    (hzero : s₀.inUse 0 = true) {a : ManagerAction} (hstep : ManagerStep s₀ root c a d) :
    ManagerInvariant s₀ root (space.apply a) d := by
  cases hstep with
  | own hown => exact h.own hframes hzero hown
  | store hframe => exact h.store _ _ hframe
  | mapPage hahead hmap => exact h.mapPage hframes hzero hahead hmap
  | setWritable hmapped => exact h.setWritable hmapped

private theorem run {actions : List ManagerAction} (h : ManagerInvariant s₀ root space c)
    (hframes : s₀.frames ≤ 2 ^ 40) (hzero : s₀.inUse 0 = true)
    (hrun : Run (ManagerStep s₀ root) c actions d) :
    ManagerInvariant s₀ root (actions.foldl AddressSpace.apply space) d := by
  induction hrun generalizing space with
  | nil => exact h
  | cons hstep _ ih => exact ih (h.step hframes hzero hstep)

private theorem initial {m₀ m : MemoryManager} (hstart : m₀.allocator = s₀)
    (hframes : s₀.frames ≤ 2 ^ 40) (hzero : s₀.inUse 0 = true) (hahead : 0 < s₀.ahead.card)
    (hbitmap : ∀ frame < s₀.frames, m₀.HoldsBitmap frame → s₀.inUse frame = true)
    (hroot : m₀.pagingInitRoot = some (root, m)) :
    ManagerInvariant s₀ root .empty ⟨m, []⟩ := by
  simp only [MemoryManager.pagingInitRoot, Option.bind_eq_bind, Option.bind_eq_some_iff,
    Option.pure_def, Option.some.injEq, Prod.exists, Prod.mk.injEq] at hroot
  obtain ⟨_, u, hreq, rfl, rfl⟩ := hroot
  obtain ⟨page, hstep, rfl, -, hbuffer⟩ := MemoryManager.request_eq_some.mp hreq
  rw [hstart] at hstep
  have hrun : Run RequestStep s₀ [page] u.allocator := .cons hstep (.nil _)
  obtain ⟨hnull, hmutex⟩ := requests_answered hrun (by omega) hzero hahead
  have hgrant := (OwnInvariant.initial s₀).requests hrun hnull (by omega) hzero
  have hcleared : ∀ index, (u.zero (BitVec.ofNat 64 page)).tables.memory
      (pageNumber (BitVec.ofNat 64 page)) index = 0 := fun _ => clearTable_same
  have hbitmap' : ∀ frame < s₀.frames, (u.zero (BitVec.ofNat 64 page)).HoldsBitmap frame →
      s₀.inUse frame = true := by
    intro frame hframe hholds
    have hsize : u.allocator.pageframemap.size = m₀.allocator.pageframemap.size := by
      rw [hstart]
      exact hgrant.size
    apply hbitmap frame hframe
    rw [MemoryManager.HoldsBitmap, ← hbuffer, ← hsize]
    exact hholds
  refine ⟨⟨[oneFrame page], hgrant, by simp [oneFrame], ?_⟩, .of_zeroed_root hcleared, hbitmap',
    hmutex⟩
  intro path k _ hk
  have hempty : ∀ i, entryTarget ((u.zero (BitVec.ofNat 64 page)).tables.memory
      (pageNumber (BitVec.ofNat 64 page)) i) = none := by
    intro i
    rw [hcleared i, entryTarget_zero]
  rw [(table_of_emptyRoot hempty hk).2]
  exact ⟨_, List.mem_singleton_self _, (hgrant.answer hframes u Nat.one_pos).2⟩

end ManagerInvariant

/-- After `pageframe_init` every tracked frame with a part of the bitmap is in use, unless the
bitmap ends with a frame and the byte behind it is in another one. -/
theorem Booted.bitmap_inUse {memory : Nat → BitVec 8} {symbols : LinkerSymbols}
    {memorymap : List MemoryMapEntry} {largest : MemoryMapEntry} {s : Pageframe}
    (h : Booted memory symbols memorymap largest s) (hsized : largest.Sized)
    (haligned : largest.physicalBase % 4096 = 0) (hsize : s.pageframemap.size % 4096 ≠ 0)
    (words : BitVec 52 → BitVec 9 → BitVec 64) {frame : Nat} (hframe : frame < s.frames)
    (hholds : (MemoryManager.mk s largest.physicalBase words).HoldsBitmap frame) :
    s.inUse frame = true := by
  have hsmall := h.quiet.size
  have hbase := hsized.1
  have hpages := nearestPage_eq (show s.pageframemap.size ≤ 2 ^ 64 - 4096 by omega)
  simp only [MemoryManager.HoldsBitmap] at hholds
  refine (h.inUse frame hframe.le).mpr (.inr (.inl ?_))
  rw [mem_frameIndexes (by omega), hpages]
  omega

end VisualOS.Kernel
