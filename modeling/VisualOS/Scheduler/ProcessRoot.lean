import VisualOS.Scheduler.ProcessPagemap

/-!
# What the root of a process may hold

`_process_pagemap` trusts the frame it takes for the root.  Entries that were left in it are
part of the new address space, and so are the flags of entries that were not present.
-/

namespace VisualOS.Kernel

open Framework

/-- A machine that recycles frames: the one for the next root holds `content`, and every entry of
the others is `other`. -/
def recycledPaging (content : BitVec 9 → BitVec 64) (other : BitVec 64) : Paging where
  memory page := if page = 2 then content else fun _ => other
  answers n := BitVec.ofNat 64 ((n + 2) * 4096)
  requests := 0

/-- The address that uses one index on all four levels. -/
def selfAddress (i : BitVec 9) : BitVec 64 := (i ++ i ++ i ++ i ++ 0#12).signExtend 64

/-- The page at that address. -/
def selfSegment (i : BitVec 9) : ProcessEnvironment := ⟨selfAddress i, 0, 0, 1⟩

private theorem selfAddress_walk (i : BitVec 9) : walkIndexes (selfAddress i) = [i, i, i, i] := by
  revert i
  decide +kernel

private theorem selfSegment_valid (i : BitVec 9) : (selfSegment i).Valid := by
  have hvirtual : ∀ i, (selfSegment i).virtualAddress.toNat % 4096 = 0 ∧
      ((selfSegment i).virtualAddress.toNat + (selfSegment i).pages.toNat * 4096 ≤ 2 ^ 47 ∨
        2 ^ 64 - 2 ^ 47 ≤ (selfSegment i).virtualAddress.toNat ∧
          (selfSegment i).virtualAddress.toNat + (selfSegment i).pages.toNat * 4096 ≤ 2 ^ 64) := by
    decide +kernel
  have hphysical : ∀ i, (selfSegment i).physicalAddress.toNat % 4096 = 0 ∧
      (selfSegment i).physicalAddress.toNat + (selfSegment i).pages.toNat * 4096 ≤ 2 ^ 52 := by
    decide +kernel
  exact ⟨(hvirtual i).1, (hphysical i).1, (hvirtual i).2, (hphysical i).2⟩

private theorem selfSegment_covers (i : BitVec 9) : (selfSegment i).Covers (selfAddress i) := by
  have hpages : (selfSegment i).pages.toNat = 1 := rfl
  rw [ProcessEnvironment.Covers, hpages]
  exact ⟨le_rfl, Nat.lt_add_of_pos_right (by decide)⟩

private theorem selfAddress_canonical (i : BitVec 9) : Canonical (selfAddress i) := by
  rcases (selfSegment_valid i).virtualRange with h | h
  · exact .inl (lt_of_lt_of_le (selfSegment_covers i).2 h)
  · exact .inr h.1

section Recycled

variable {content : BitVec 9 → BitVec 64} {other : BitVec 64} {limit : Nat} {i : BitVec 9}

private theorem recycledPaging_content (content : BitVec 9 → BitVec 64) (other : BitVec 64) :
    (recycledPaging content other).memory (pageNumber ((recycledPaging content other).answers
      (recycledPaging content other).requests)) = content := by
  have hroot : pageNumber (BitVec.ofNat 64 ((0 + 2) * 4096)) = 2 := by decide
  exact if_pos hroot

private theorem recycledPaging_memory (page : BitVec 52) :
    (recycledPaging content (content i)).memory page i = content i := by
  rw [recycledPaging]
  dsimp only
  split <;> rfl

private theorem recycledPaging_supplied {t : Paging} (h : t.requests ≤ 2 ^ 32) :
    (recycledPaging content other).Supplied t :=
  supplied_of_consecutive rfl (by omega)

/-- An entry that leads to a page with the same entry leads there on every level. -/
theorem resolve_replicate {memory : BitVec 52 → BitVec 9 → BitVec 64} {k : BitVec 52}
    {entry : BitVec 64} (hentry : ∀ page, memory page i = entry)
    (htarget : entryTarget entry = some k)
    (hlarge : entry.getLsbD PageDirectoryFlagBit.largerpages.toNat = false) (n : Nat)
    (page : BitVec 52) (w : Bool) :
    ∃ w', resolve memory page w (List.replicate (n + 1) i) = some (k, w') := by
  induction n generalizing page w with
  | zero =>
      refine ⟨w && entry.getLsbD PageDirectoryFlagBit.writable.toNat, ?_⟩
      rw [List.replicate_one, resolve, hentry, hlarge, Bool.false_and, if_neg (by simp), htarget]
      rfl
  | succ n ih =>
      rw [List.replicate_succ, resolve, hentry, hlarge, Bool.false_and, if_neg (by simp), htarget]
      exact ih k _

private theorem PagemapCorrect.not_present (h : PagemapCorrect content limit)
    (hlarge : (content i).getLsbD PageDirectoryFlagBit.largerpages.toNat = false) :
    (content i).getLsbD PageDirectoryFlagBit.present.toNat = false := by
  by_contra hpresent
  obtain ⟨root, t, hresult, hexact⟩ := h (recycledPaging content (content i)) []
    (recycledPaging_content ..) ⟨by simp, .nil⟩ (by simp)
  obtain ⟨rfl, rfl⟩ := Prod.mk.inj (Option.some.inj hresult)
  have htarget := entryTarget_present (show getBit (content i) PageDirectoryFlagBit.present.toNat ≠
    false by rwa [getBit_eq (by decide)])
  obtain ⟨w, hresolve⟩ := resolve_replicate recycledPaging_memory htarget hlarge 3
    (pageNumber (BitVec.ofNat 64 ((0 + 2) * 4096))) true
  have hcovered := (hexact (recycledPaging_supplied (show 0 + 1 ≤ 2 ^ 32 by decide)) (selfAddress i)
    (selfAddress_canonical i) _ w).mp (by rw [selfAddress_walk]; exact hresolve)
  obtain ⟨e, he, -⟩ := hcovered
  exact absurd he (by simp)

private theorem PagemapCorrect.segment {e : ProcessEnvironment} (h : PagemapCorrect content limit)
    (other : BitVec 64) (hvalid : e.Valid) (hreadonly : e.writable = false)
    (hlimit : e.pages.toNat ≤ limit) (hpages : e.pages.toNat < 2 ^ 30) :
    ∃ t, mapPages ((recycledPaging content other).answers (recycledPaging content other).requests)
        (fun i => e.virtualAddress + pagingMapOffset (BitVec.ofNat 32 i))
        (fun i => e.physicalAddress + pagingMapOffset (BitVec.ofNat 32 i)) e.pages.toNat
        { recycledPaging content other with
          requests := (recycledPaging content other).requests + 1 } = t ∧
      (recycledPaging content other).Supplied t ∧
      PagemapExact [e]
        ((recycledPaging content other).answers (recycledPaging content other).requests) t := by
  obtain ⟨root, t, hresult, hexact⟩ := h (recycledPaging content other) [e]
    (recycledPaging_content ..) ⟨by simpa using hvalid, by simp⟩ (by simpa using hlimit)
  rw [processPagemap_readonly (by omega) hreadonly] at hresult
  obtain ⟨rfl, ht⟩ := Prod.mk.inj (Option.some.inj hresult)
  have hrequests : t.requests ≤ 0 + 1 + 3 * e.pages.toNat := by
    rw [← ht]
    exact (mapPages_requests _ _ _ _ _).2
  have hsupplied : (recycledPaging content other).Supplied t :=
    recycledPaging_supplied (by omega)
  exact ⟨t, ht, hsupplied, hexact hsupplied⟩

private theorem Paging.Supplied.root_ne {s t : Paging} (h : s.Supplied t) {n : Nat}
    (hn : s.requests + 1 ≤ n) (hlt : n < t.requests) :
    pageNumber (s.answers s.requests) ≠ pageNumber (s.answers n) := by
  intro heq
  apply h.distinct s.requests n le_rfl hn hlt
  exact (h.frame s.requests le_rfl (by omega)).1.pageNumber_injective
    (h.frame n (by omega) hlt).1 heq

private theorem Paging.Supplied.root_sameFlags {s : Paging}
    {virtualAddress physicalAddress : BitVec 64}
    (h : s.Supplied (pagingMapPage (s.answers s.requests) virtualAddress physicalAddress
      { s with requests := s.requests + 1 })) (i : BitVec 9) :
    SameFlags (s.memory (pageNumber (s.answers s.requests)) i)
      ((pagingMapPage (s.answers s.requests) virtualAddress physicalAddress
        { s with requests := s.requests + 1 }).memory (pageNumber (s.answers s.requests)) i) :=
  pagingMapPage_sameFlags (s := { s with requests := s.requests + 1 })
    (fun _ hn hlt => h.root_ne hn hlt) i

private theorem PagemapCorrect.not_large (h : PagemapCorrect content limit) (hlimit : 0 < limit) :
    (content i).getLsbD PageDirectoryFlagBit.largerpages.toNat = false := by
  by_contra hlarge
  have hpages : (selfSegment i).pages.toNat = 1 := rfl
  obtain ⟨t, ht, hsupplied, hexact⟩ := h.segment 0 (selfSegment_valid i) BitVec.getLsbD_zero
    (hpages ▸ hlimit) (hpages ▸ by decide)
  rw [hpages] at ht
  -- The entry in the root still has the bit, so the segment's page does not resolve.
  have hkept := (ht ▸ hsupplied).root_sameFlags i PageDirectoryFlagBit.largerpages.toNat
    (by decide) (by decide) (by decide)
  rw [recycledPaging_content] at hkept
  have hbit : (t.memory (pageNumber ((recycledPaging content 0).answers
      (recycledPaging content 0).requests)) i).getLsbD PageDirectoryFlagBit.largerpages.toNat =
      true := by
    rw [← ht]
    exact hkept.trans (Bool.of_not_eq_false hlarge)
  have hresolve := (hexact (selfAddress i) (selfAddress_canonical i) _ _).mpr
    ⟨_, List.mem_singleton_self _, selfSegment_covers i, rfl, rfl⟩
  rw [selfAddress_walk, resolve, hbit] at hresolve
  exact absurd hresolve (by simp)

end Recycled

/-! ## Long segments -/

/-- One page more than `paging_map` can count. -/
def longSegment : ProcessEnvironment := ⟨0x100000000, 0x100000000, 0, 0x80001⟩

/-- The address of its last page. -/
def longAddress : BitVec 64 := 0x180000000

private theorem longAddress_canonical : Canonical longAddress := .inl (by decide)

private theorem longSegment_covers : longSegment.Covers longAddress := ⟨by decide, by decide⟩

private theorem longSegment_valid : longSegment.Valid :=
  ⟨by decide, by decide, .inl (by decide), by decide⟩

/-- Where `paging_map` maps the pages of the long segment: the last one lands below it. -/
theorem longSegment_page {i : Nat} (hi : i < 2 ^ 19 + 1) :
    (0x100000000#64 + pagingMapOffset (BitVec.ofNat 32 i)).toNat = 2 ^ 32 + i * 4096 ∧ i < 2 ^ 19 ∨
      (0x100000000#64 + pagingMapOffset (BitVec.ofNat 32 i)).toNat = 2 ^ 31 := by
  by_cases hlt : i < 2 ^ 19
  · left
    rw [pagingMapOffset_eq hlt, BitVec.toNat_add, BitVec.toNat_ofNat, BitVec.toNat_ofNat]
    omega
  · right
    rw [show i = 2 ^ 19 by omega, pagingMapOffset_overflow]
    decide

private theorem longSegment_walk {i : Nat} (hi : i < 2 ^ 19 + 1) :
    walkIndexes longAddress ≠ walkIndexes (0x100000000#64 + pagingMapOffset (BitVec.ofNat 32 i)) := by
  have hpage := longSegment_page hi
  have hcanonical : Canonical (0x100000000#64 + pagingMapOffset (BitVec.ofNat 32 i)) := by
    rw [Canonical]
    omega
  rw [Ne, walkIndexes_eq_iff_page longAddress_canonical hcanonical,
    show longAddress.toNat = 2 ^ 32 + 2 ^ 31 from rfl]
  omega

private theorem PagemapCorrect.limit_le {content : BitVec 9 → BitVec 64} {limit : Nat}
    (h : PagemapCorrect content limit)
    (hcontent : ∀ i, (content i).getLsbD PageDirectoryFlagBit.present.toNat = false ∧
      (content i).getLsbD PageDirectoryFlagBit.largerpages.toNat = false) : limit ≤ 2 ^ 19 := by
  by_contra hlimit
  have hpages : longSegment.pages.toNat = 2 ^ 19 + 1 := by decide
  obtain ⟨t, ht, hsupplied, hexact⟩ := h.segment 0 longSegment_valid BitVec.getLsbD_zero
    (hpages ▸ Nat.lt_of_not_le hlimit) (hpages ▸ by decide)
  rw [hpages] at ht
  rw [← recycledPaging_content content 0] at hcontent
  obtain ⟨hempty, hstart⟩ := emptyRoot_mapped
    { recycledPaging content 0 with requests := (recycledPaging content 0).requests + 1 }
    ((recycledPaging content 0).answers (recycledPaging content 0).requests) hcontent
  have hfresh : ({ recycledPaging content 0 with
      requests := (recycledPaging content 0).requests + 1 } : Paging).FreshAnswers
      ((recycledPaging content 0).answers (recycledPaging content 0).requests) t.requests :=
    hsupplied.freshAnswers_root rfl rfl hempty
  have hmapped := mapPages_mapped hstart.tree.1 (fun i hi => ?_) (ht ▸ hfresh)
  · rw [ht] at hmapped
    have htree := hmapped.wellFormedTree hstart.tree hmapped.tree
    have hresolve := (hexact longAddress longAddress_canonical _ _).mpr
      ⟨longSegment, List.mem_singleton_self _, longSegment_covers, rfl, rfl⟩
    obtain ⟨htranslate, -⟩ := htree.resolve_iff.mp hresolve
    rw [hmapped.other longAddress (fun i hi => longSegment_walk hi),
      hstart.translate longAddress longAddress_canonical] at htranslate
    obtain ⟨e, he, -⟩ := htranslate
    exact absurd he (by simp)
  · have hpage := longSegment_page hi
    change (0x100000000#64 + pagingMapOffset (BitVec.ofNat 32 i)).toNat % 4096 = 0 ∧
      (0x100000000#64 + pagingMapOffset (BitVec.ofNat 32 i)).toNat < 2 ^ 52
    omega

/-- `_process_pagemap` is correct, for all environments and all other memory, exactly if no entry
left in the frame of the root is present or has the large-page bit, and no segment has more than
`2 ^ 19` pages. -/
theorem process_pagemap_exact_iff {content : BitVec 9 → BitVec 64} {limit : Nat}
    (hlimit : 0 < limit) :
    PagemapCorrect content limit ↔
      (∀ i, (content i).getLsbD PageDirectoryFlagBit.present.toNat = false ∧
        (content i).getLsbD PageDirectoryFlagBit.largerpages.toNat = false) ∧ limit ≤ 2 ^ 19 := by
  constructor
  · intro h
    have hcontent : ∀ i, (content i).getLsbD PageDirectoryFlagBit.present.toNat = false ∧
        (content i).getLsbD PageDirectoryFlagBit.largerpages.toNat = false :=
      fun i => ⟨h.not_present (h.not_large hlimit), h.not_large hlimit⟩
    exact ⟨hcontent, h.limit_le hcontent⟩
  · rintro ⟨hcontent, hle⟩
    exact pagemapCorrect_of_emptyRoot hcontent hle

theorem process_pagemap_exact_iff_zeroed :
    0 < 2 ^ 19 ∧ PagemapCorrect (fun _ => 0) (2 ^ 19) :=
  ⟨by decide, (process_pagemap_exact_iff (by decide)).mpr
    ⟨fun _ => ⟨BitVec.getLsbD_zero, BitVec.getLsbD_zero⟩, le_rfl⟩⟩

/-- A root that used to refer to itself at index 1. -/
def staleRoot : Paging := recycledPaging (fun i => if i = 1 then 0x2001 else 0) 0

def smallSegment : ProcessEnvironment := ⟨0x400000, 0x9000, 0, 1⟩

/-- One segment is asked for, and the address space also contains the old root. -/
theorem process_pagemap_stale_root :
    ValidEnvironment [smallSegment] ∧
      ∃ t, processPagemap [smallSegment] staleRoot = some (0x2000, t) ∧ staleRoot.Supplied t ∧
        resolve t.memory (pageNumber 0x2000) true (walkIndexes (selfAddress 1)) =
          some (2, false) ∧
        ¬PagemapExact [smallSegment] 0x2000 t := by
  have hpages : smallSegment.pages.toNat = 1 := rfl
  have hvalid : smallSegment.Valid := ⟨by decide, by decide, .inl (by decide), by decide⟩
  have hcovers : ¬smallSegment.Covers (selfAddress 1) := by
    rw [ProcessEnvironment.Covers]
    decide
  have hmap := processPagemap_readonly (hpages ▸ by decide) (show smallSegment.writable = false by
    decide) staleRoot
  refine ⟨⟨by simpa using hvalid, by simp⟩, _, hmap, ?_⟩
  have hresolve : resolve (mapPages 0x2000
      (fun i => smallSegment.virtualAddress + pagingMapOffset (BitVec.ofNat 32 i))
      (fun i => smallSegment.physicalAddress + pagingMapOffset (BitVec.ofNat 32 i)) 1
      { staleRoot with requests := 1 }).memory (pageNumber 0x2000) true
      (walkIndexes (selfAddress 1)) = some (2, false) := by
    decide
  refine ⟨?_, hresolve, ?_⟩
  · apply recycledPaging_supplied
    exact (mapPages_requests _ _ _ _ _).2.trans (by rw [hpages]; decide)
  · intro hexact
    obtain ⟨e, he, hcovered, -⟩ :=
      (hexact (selfAddress 1) (selfAddress_canonical 1) _ _).mp hresolve
    rw [List.mem_singleton.mp he] at hcovered
    exact hcovers hcovered

end VisualOS.Kernel
