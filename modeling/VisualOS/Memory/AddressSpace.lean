import VisualOS.Memory.PagingAttribute
import VisualOS.Memory.PagingRange
import VisualOS.Framework.Transition

/-!
# Address spaces

What a page table stands for: the page behind each virtual page, and the virtual pages that
may be written.  The calls of `paging.c` are followed on this level, where the tables that
several pages share are no longer visible.
-/

namespace VisualOS.Kernel

open Framework

/-- The part of an address that selects the entries of a walk. -/
def virtualPage (address : BitVec 64) : BitVec 36 := address.extractLsb' 12 36

structure AddressSpace where
  target : BitVec 36 → Option (BitVec 52)
  granted : BitVec 36 → Prop

namespace AddressSpace

def empty : AddressSpace where
  target _ := none
  granted _ := False

def map (space : AddressSpace) (virtualAddress physicalAddress : BitVec 64) : AddressSpace where
  target page :=
    if page = virtualPage virtualAddress then some (framePage physicalAddress)
    else space.target page
  granted := space.granted

def grant (space : AddressSpace) (virtualAddress pages : BitVec 64) : AddressSpace where
  target := space.target
  granted page := space.granted page ∨
    ∃ i < pages.toNat, page = virtualPage (virtualAddress + BitVec.ofNat 64 i * 4096#64)

theorem target_map (space : AddressSpace) (virtualAddress physicalAddress : BitVec 64)
    (page : BitVec 36) : (space.map virtualAddress physicalAddress).target page =
      if page = virtualPage virtualAddress then some (framePage physicalAddress)
      else space.target page := rfl

end AddressSpace

/-- The entries of all four levels over a page allow writes. -/
def Paging.EffectivelyWritable (s : Paging) (root address : BitVec 64) : Prop :=
  ∀ path index, path ++ [index] <+: walkIndexes address → s.Writes root path index

/-- The tables below the root stand for the address space.  An entry allows writes exactly if it
is on the way to a page that was granted. -/
structure Implements (root : BitVec 64) (space : AddressSpace) (s : Paging) : Prop where
  tree : s.WellFormedTree root
  target : ∀ address, translate s.memory root address = space.target (virtualPage address)
  writes : ∀ path index, path.length ≤ 3 → (s.Writes root path index ↔
    ∃ address, space.granted (virtualPage address) ∧ path ++ [index] <+: walkIndexes address)

namespace Implements

variable {root virtualAddress physicalAddress pages : BitVec 64} {space : AddressSpace}
  {s t : Paging}

theorem of_zeroed_root (h : ∀ index, s.memory (pageNumber root) index = 0) :
    Implements root .empty s := by
  have hempty : ∀ i, entryTarget (s.memory (pageNumber root) i) = none := by
    intro i
    rw [h i, entryTarget_zero]
  have hentry : ∀ path index entry, s.entry root path index = some entry → entry = 0 := by
    intro path index entry hentry
    rw [Paging.entry_eq, Option.map_eq_some_iff] at hentry
    obtain ⟨k, hk, rfl⟩ := hentry
    rw [(table_of_emptyRoot hempty hk).2]
    exact h index
  refine ⟨⟨?_, ?_⟩, ?_, ?_⟩
  · intro p q k _ _ hp hq
    rw [(table_of_emptyRoot hempty hp).1, (table_of_emptyRoot hempty hq).1]
  · intro path index entry _ he
    rw [hentry path index entry he]
    rfl
  · intro address
    rw [translate, walkIndexes, descend, hempty]
    rfl
  · intro path index _
    constructor
    · rintro ⟨entry, he, hw⟩
      rw [hentry path index entry he] at hw
      exact absurd hw (by decide)
    · rintro ⟨_, hfalse, _⟩
      exact hfalse.elim

/-- A page may be written exactly if it was granted: the entry of the last level is on the way
to no other page. -/
theorem effectivelyWritable_iff (h : Implements root space s) (address : BitVec 64) :
    s.EffectivelyWritable root address ↔ space.granted (virtualPage address) := by
  constructor
  · intro hw
    obtain ⟨path, index, hwalk⟩ : ∃ path index, walkIndexes address = path ++ [index] :=
      ⟨[_, _, _], _, rfl⟩
    have hlength : path.length = 3 := by
      have := congrArg List.length hwalk
      simpa [walkIndexes] using this.symm
    have hleaf := hw path index (hwalk ▸ List.prefix_refl _)
    rw [h.writes path index hlength.le, ← hwalk] at hleaf
    obtain ⟨address', hgranted, hprefix⟩ := hleaf
    have hsame : walkIndexes address = walkIndexes address' := hprefix.eq_of_length rfl
    rw [virtualPage, walkIndexes_eq_iff.mp hsame]
    exact hgranted
  · intro hgranted path index hprefix
    rw [h.writes path index (length_le_of_concat_isPrefix hprefix)]
    exact ⟨address, hgranted, hprefix⟩

theorem mapPage (h : Implements root space s)
    (hfresh : s.FreshAnswers root (pagingMapPage root virtualAddress physicalAddress s).requests) :
    Implements root (space.map virtualAddress physicalAddress)
      (pagingMapPage root virtualAddress physicalAddress s) := by
  obtain ⟨hextends, htree, htranslate⟩ := pagingMapPage_linked h.tree.1 hfresh
  refine ⟨hextends.wellFormedTree h.tree htree, ?_, ?_⟩
  · intro address
    rw [htranslate, h.target, AddressSpace.target_map]
    by_cases hpage : virtualPage address = virtualPage virtualAddress
    · rw [if_pos hpage, if_pos (walkIndexes_eq_iff.mpr hpage)]
    · rw [if_neg hpage, if_neg (fun hwalk => hpage (walkIndexes_eq_iff.mp hwalk))]
  · intro path index hpath
    rw [hextends.writes index hpath]
    exact h.writes path index hpath

theorem setWritable (h : Implements root space s)
    (hmapped : ∀ i < pages.toNat, ∃ page,
      translate s.memory root (virtualAddress + BitVec.ofNat 64 i * 4096#64) = some page) :
    Implements root (space.grant virtualAddress pages)
      (pagingSetAttribute root virtualAddress pages .writable true s) := by
  have hallowed := pagingSetAttribute_allowed virtualAddress pages h.tree.1 hmapped
  refine ⟨hallowed.wellFormedTree h.tree, ?_, ?_⟩
  · intro address
    rw [hallowed.translate, h.target]
    rfl
  · intro path index hpath
    rw [hallowed.writes path index hpath, h.writes path index hpath]
    constructor
    · rintro (⟨address, hgranted, hprefix⟩ | ⟨-, i, hi, hprefix⟩)
      · exact ⟨address, .inl hgranted, hprefix⟩
      · exact ⟨_, .inr ⟨i, hi, rfl⟩, hprefix⟩
    · rintro ⟨address, hgranted | ⟨i, hi, hpage⟩, hprefix⟩
      · exact .inl ⟨address, hgranted, hprefix⟩
      · rw [virtualPage, virtualPage, ← walkIndexes_eq_iff] at hpage
        exact .inr ⟨by simp, i, hi, hpage ▸ hprefix⟩

end Implements

/-! ## Runs of calls -/

/-- The calls that build an address space. -/
inductive PagingAction
  | mapPage (virtualAddress physicalAddress : BitVec 64)
  | map (virtualAddress physicalAddress pages : BitVec 64)
  | setWritable (virtualAddress pages : BitVec 64)

/-- One call on the root that returns.  Requests are answered with fresh frames, and writes are
allowed only to pages that are mapped. -/
inductive PagingStep (root : BitVec 64) : Paging → PagingAction → Paging → Prop
  | mapPage {s : Paging} {virtualAddress physicalAddress : BitVec 64} :
      s.FreshAnswers root (pagingMapPage root virtualAddress physicalAddress s).requests →
      PagingStep root s (.mapPage virtualAddress physicalAddress)
        (pagingMapPage root virtualAddress physicalAddress s)
  | map {s t : Paging} {virtualAddress physicalAddress pages : BitVec 64} :
      pagingMap root virtualAddress physicalAddress pages s = some t →
      s.FreshAnswers root t.requests →
      PagingStep root s (.map virtualAddress physicalAddress pages) t
  | setWritable {s : Paging} {virtualAddress pages : BitVec 64} :
      (∀ i < pages.toNat, ∃ page,
        translate s.memory root (virtualAddress + BitVec.ofNat 64 i * 4096#64) = some page) →
      PagingStep root s (.setWritable virtualAddress pages)
        (pagingSetAttribute root virtualAddress pages .writable true s)

/-- The call allows writes to the page of the address. -/
def PagingAction.Grants (address : BitVec 64) : PagingAction → Prop
  | .mapPage _ _ => False
  | .map _ _ _ => False
  | .setWritable virtualAddress pages =>
      ∃ i < pages.toNat,
        virtualPage address = virtualPage (virtualAddress + BitVec.ofNat 64 i * 4096#64)

def PagingAction.isMapping : PagingAction → Bool
  | .mapPage _ _ => true
  | .map _ _ _ => true
  | .setWritable _ _ => false

private theorem pagingMapLoop_requests {root virtualAddress physicalAddress pages : BitVec 64}
    {rounds : Nat} {i : BitVec 32} {s t : Paging}
    (h : pagingMapLoop root virtualAddress physicalAddress pages rounds i s = some t) :
    s.requests ≤ t.requests := by
  induction rounds generalizing i s with
  | zero => simp [pagingMapLoop] at h
  | succ rounds ih =>
      rw [pagingMapLoop] at h
      split at h
      · exact (pagingMapPage_requests ..).1.trans (ih h)
      · exact (Option.some.inj h) ▸ le_rfl

/-- The loop of `paging_map` maps pages and grants nothing, however many pages it is given. -/
private theorem Implements.mapLoop {root virtualAddress physicalAddress pages : BitVec 64}
    {rounds : Nat} {i : BitVec 32} {space : AddressSpace} {s t : Paging}
    (h : Implements root space s)
    (hloop : pagingMapLoop root virtualAddress physicalAddress pages rounds i s = some t)
    (hfresh : s.FreshAnswers root t.requests) :
    ∃ space', space'.granted = space.granted ∧ Implements root space' t := by
  induction rounds generalizing i s space with
  | zero => simp [pagingMapLoop] at hloop
  | succ rounds ih =>
      rw [pagingMapLoop] at hloop
      split at hloop
      · have hfirst := hfresh.mono (pagingMapLoop_requests hloop)
        have hextends := (pagingMapPage_linked h.tree.1 hfirst).1
        obtain ⟨space', hgranted, hspace'⟩ :=
          ih (h.mapPage hfirst) hloop (hextends.freshAnswers hfresh)
        exact ⟨space', hgranted, hspace'⟩
      · exact ⟨space, rfl, (Option.some.inj hloop) ▸ h⟩

private theorem Implements.step {root : BitVec 64} {space : AddressSpace} {s t : Paging}
    {a : PagingAction} (h : Implements root space s) (hstep : PagingStep root s a t) :
    ∃ space', Implements root space' t ∧ ∀ address, space'.granted (virtualPage address) ↔
      space.granted (virtualPage address) ∨ a.Grants address := by
  cases hstep with
  | mapPage hfresh => exact ⟨_, h.mapPage hfresh, fun _ => (or_false _).symm ▸ Iff.rfl⟩
  | map hmap hfresh =>
      obtain ⟨space', hgranted, hspace'⟩ := h.mapLoop hmap hfresh
      refine ⟨space', hspace', ?_⟩
      intro address
      rw [hgranted]
      exact (or_false _).symm ▸ Iff.rfl
  | setWritable hmapped => exact ⟨_, h.setWritable hmapped, fun _ => Iff.rfl⟩

private theorem Implements.run {root : BitVec 64} {space : AddressSpace} {s t : Paging}
    {actions : List PagingAction} (h : Implements root space s)
    (hrun : Run (PagingStep root) s actions t) :
    ∃ space', Implements root space' t ∧ ∀ address, space'.granted (virtualPage address) ↔
      space.granted (virtualPage address) ∨ ∃ a ∈ actions, a.Grants address := by
  induction hrun generalizing space with
  | nil => exact ⟨space, h, by simp⟩
  | cons hstep _ ih =>
      obtain ⟨space₁, h₁, hgranted₁⟩ := h.step hstep
      obtain ⟨space₂, h₂, hgranted₂⟩ := ih h₁
      refine ⟨space₂, h₂, ?_⟩
      intro address
      rw [hgranted₂, hgranted₁, or_assoc]
      simp

/-- After any run of mapping and granting calls on a zeroed root, a mapped page may be written
exactly if an earlier call covered it, and a further mapping changes nothing about that. -/
theorem write_permission_exact {root : BitVec 64} {s₀ s : Paging} {actions : List PagingAction}
    (hzero : ∀ index, s₀.memory (pageNumber root) index = 0)
    (hrun : Run (PagingStep root) s₀ actions s) :
    (∀ address page, translate s.memory root address = some page →
      (s.EffectivelyWritable root address ↔ ∃ a ∈ actions, a.Grants address)) ∧
    ∀ a t, PagingStep root s a t → a.isMapping = true → ∀ address,
      (t.EffectivelyWritable root address ↔ s.EffectivelyWritable root address) := by
  obtain ⟨space, hspace, hgranted⟩ := (Implements.of_zeroed_root hzero).run hrun
  refine ⟨?_, ?_⟩
  · intro address page _
    rw [hspace.effectivelyWritable_iff, hgranted]
    exact ⟨fun h => h.resolve_left id, .inr⟩
  · intro a t hstep hmapping address
    obtain ⟨space', hspace', hgranted'⟩ := hspace.step hstep
    have hnone : ¬ a.Grants address := by
      cases a with
      | mapPage _ _ => exact id
      | map _ _ _ => exact id
      | setWritable _ _ => simp [PagingAction.isMapping] at hmapping
    rw [hspace'.effectivelyWritable_iff, hspace.effectivelyWritable_iff, hgranted']
    exact ⟨fun h => h.resolve_right hnone, .inl⟩

/-- One page is mapped and granted. -/
theorem write_permission_exact_one_page :
    ∃ s, Run (PagingStep 0x1000) zeroedPaging
        [.mapPage 0x400000 0x9000, .setWritable 0x400000 1] s ∧
      (∀ address page, translate s.memory 0x1000 address = some page →
        (s.EffectivelyWritable 0x1000 address ↔
          ∃ a ∈ [PagingAction.mapPage 0x400000 0x9000, .setWritable 0x400000 1],
            a.Grants address)) ∧
      ∀ a t, PagingStep 0x1000 s a t → a.isMapping = true → ∀ address,
        (t.EffectivelyWritable 0x1000 address ↔ s.EffectivelyWritable 0x1000 address) := by
  have hmap : PagingStep 0x1000 zeroedPaging (.mapPage 0x400000 0x9000)
      (pagingMapPage 0x1000 0x400000 0x9000 zeroedPaging) := .mapPage zeroedPaging_freshAnswers
  have hset : PagingStep 0x1000 (pagingMapPage 0x1000 0x400000 0x9000 zeroedPaging)
      (.setWritable 0x400000 1) (pagingSetAttribute 0x1000 0x400000 1 .writable true
        (pagingMapPage 0x1000 0x400000 0x9000 zeroedPaging)) := by
    apply PagingStep.setWritable
    intro i hi
    have hi : i = 0 := Nat.lt_one_iff.mp hi
    subst i
    exact ⟨9, by decide⟩
  have hrun := Run.cons hmap (.cons hset (.nil _))
  exact ⟨_, hrun, write_permission_exact (fun _ => rfl) hrun⟩

end VisualOS.Kernel
