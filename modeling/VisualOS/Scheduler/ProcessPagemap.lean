import VisualOS.Memory.PagingAttribute
import VisualOS.Memory.PagingRange

/-!
# The page table of a process

`_process_pagemap` builds the page table of a new process from the segments of its
environment.  The frame it takes for the root is not cleared.
-/

namespace VisualOS.Kernel

open Framework

/-- The segments of an environment are linked by `next`; here they are a list. -/
structure ProcessEnvironment where
  virtualAddress : BitVec 64
  physicalAddress : BitVec 64
  flags : BitVec 64
  pages : BitVec 64

/-- `PROCESS_ENVIRONMENT_WRITABLE`. -/
def processEnvironmentWritable : Nat := 2

/-- The loop of `_process_pagemap`, in which the flag for a stack has no effect. -/
def processPagemapLoop (pml4 : BitVec 64) : List ProcessEnvironment → Paging → Option Paging
  | [], s => some s
  | environment :: next, s => do
      let s ← pagingMap pml4 environment.virtualAddress environment.physicalAddress
        environment.pages s
      let s :=
        if environment.flags &&& shiftedOne processEnvironmentWritable ≠ 0 then
          pagingSetAttribute pml4 environment.virtualAddress environment.pages .writable true s
        else s
      processPagemapLoop pml4 next s

def processPagemap (environment : List ProcessEnvironment) (s : Paging) :
    Option (BitVec 64 × Paging) := do
  let (pml4, s) := s.request
  let s ← processPagemapLoop pml4 environment s
  return (pml4, s)

/-! ## What the table should contain -/

namespace ProcessEnvironment

def writable (e : ProcessEnvironment) : Bool := e.flags.getLsbD processEnvironmentWritable

def Covers (e : ProcessEnvironment) (address : BitVec 64) : Prop :=
  e.virtualAddress.toNat ≤ address.toNat ∧
    address.toNat < e.virtualAddress.toNat + e.pages.toNat * 4096

/-- The physical page behind an address of the segment. -/
def target (e : ProcessEnvironment) (address : BitVec 64) : BitVec 52 :=
  pageNumber (e.physicalAddress + (address - e.virtualAddress))

/-- A segment of whole pages within the address spaces. -/
structure Valid (e : ProcessEnvironment) : Prop where
  virtualAligned : e.virtualAddress.toNat % 4096 = 0
  physicalAligned : e.physicalAddress.toNat % 4096 = 0
  virtualRange : e.virtualAddress.toNat + e.pages.toNat * 4096 ≤ 2 ^ 47 ∨
    2 ^ 64 - 2 ^ 47 ≤ e.virtualAddress.toNat ∧
      e.virtualAddress.toNat + e.pages.toNat * 4096 ≤ 2 ^ 64
  physicalRange : e.physicalAddress.toNat + e.pages.toNat * 4096 ≤ 2 ^ 52

/-- The segments share no address. -/
def Apart (e e' : ProcessEnvironment) : Prop :=
  e.virtualAddress.toNat + e.pages.toNat * 4096 ≤ e'.virtualAddress.toNat ∨
    e'.virtualAddress.toNat + e'.pages.toNat * 4096 ≤ e.virtualAddress.toNat

end ProcessEnvironment

structure ValidEnvironment (environment : List ProcessEnvironment) : Prop where
  valid : ∀ e ∈ environment, e.Valid
  apart : environment.Pairwise ProcessEnvironment.Apart

/-- An address resolves exactly if a segment covers it, to the page of the segment behind it,
writable if the segment is. -/
def PagemapExact (environment : List ProcessEnvironment) (root : BitVec 64) (t : Paging) : Prop :=
  ∀ address, Canonical address → ∀ page writable,
    resolve t.memory (pageNumber root) true (walkIndexes address) = some (page, writable) ↔
      ∃ e ∈ environment, e.Covers address ∧ page = e.target address ∧ writable = e.writable

/-- The call succeeds on all environments with segments of at most `limit` pages and all
memories in which the frame taken for the root holds `content`. -/
def PagemapCorrect (content : BitVec 9 → BitVec 64) (limit : Nat) : Prop :=
  ∀ s environment, s.memory (pageNumber (s.answers s.requests)) = content →
    ValidEnvironment environment → (∀ e ∈ environment, e.pages.toNat ≤ limit) →
    ∃ root t, processPagemap environment s = some (root, t) ∧
      (s.Supplied t → PagemapExact environment root t)

/-! ## Addresses and pages -/

section Addresses

variable {e : ProcessEnvironment} {address address' : BitVec 64} {i : Nat}

namespace ProcessEnvironment

/-- The address of a page of the segment. -/
def page (e : ProcessEnvironment) (i : Nat) : BitVec 64 :=
  e.virtualAddress + BitVec.ofNat 64 i * 4096#64

/-- The physical address of a page of the segment. -/
def frame (e : ProcessEnvironment) (i : Nat) : BitVec 64 :=
  e.physicalAddress + BitVec.ofNat 64 i * 4096#64

private theorem Valid.page_toNat (h : e.Valid) (hi : i < e.pages.toNat) :
    (e.page i).toNat = e.virtualAddress.toNat + i * 4096 := by
  have hrange := h.virtualRange
  rw [page, ← BitVec.ofNat_mul, BitVec.toNat_add, BitVec.toNat_ofNat]
  omega

private theorem Valid.frame_toNat (h : e.Valid) (hi : i < e.pages.toNat) :
    (e.frame i).toNat = e.physicalAddress.toNat + i * 4096 := by
  have hrange := h.physicalRange
  rw [frame, ← BitVec.ofNat_mul, BitVec.toNat_add, BitVec.toNat_ofNat]
  omega

private theorem Valid.page_canonical (h : e.Valid) (hi : i < e.pages.toNat) :
    Canonical (e.page i) := by
  have hrange := h.virtualRange
  rw [Canonical, h.page_toNat hi]
  omega

private theorem Valid.isFrameAddress (h : e.Valid) (hi : i < e.pages.toNat) :
    IsFrameAddress (e.frame i) := by
  have hrange := h.physicalRange
  have haligned := h.physicalAligned
  rw [IsFrameAddress, h.frame_toNat hi]
  omega

private theorem Valid.covers_iff (h : e.Valid) (hcanonical : Canonical address) :
    e.Covers address ↔ ∃ i < e.pages.toNat, walkIndexes address = walkIndexes (e.page i) := by
  have haligned := h.virtualAligned
  constructor
  · rintro ⟨hle, hlt⟩
    refine ⟨(address.toNat - e.virtualAddress.toNat) / 4096, by omega, ?_⟩
    have hi : (address.toNat - e.virtualAddress.toNat) / 4096 < e.pages.toNat := by omega
    rw [walkIndexes_eq_iff_page hcanonical (h.page_canonical hi), h.page_toNat hi]
    omega
  · rintro ⟨i, hi, hwalk⟩
    rw [walkIndexes_eq_iff_page hcanonical (h.page_canonical hi), h.page_toNat hi] at hwalk
    rw [Covers]
    omega

private theorem Valid.target_eq (h : e.Valid) (hcanonical : Canonical address)
    (hi : i < e.pages.toNat) (hwalk : walkIndexes address = walkIndexes (e.page i)) :
    e.target address = pageNumber (e.frame i) := by
  have haligned := h.virtualAligned
  have hphysical := h.physicalAligned
  have hrange := h.physicalRange
  have hbound := address.isLt
  rw [walkIndexes_eq_iff_page hcanonical (h.page_canonical hi), h.page_toNat hi] at hwalk
  apply BitVec.eq_of_toNat_eq
  rw [target, pageNumber_toNat, pageNumber_toNat, h.frame_toNat hi, BitVec.toNat_add,
    BitVec.toNat_sub]
  omega

instance : Std.Symm Apart := ⟨fun _ _ h => Or.symm h⟩

private theorem Apart.not_covers {e e' : ProcessEnvironment} (h : Apart e e')
    (hcovers : e.Covers address) : ¬e'.Covers address := by
  rw [Apart] at h
  rw [Covers] at hcovers ⊢
  omega

theorem flag_iff (e : ProcessEnvironment) {bit : Nat} (h : bit < 31) :
    e.flags &&& shiftedOne bit ≠ 0 ↔ e.flags.getLsbD bit = true := by
  rw [shiftedOne_eq_twoPow h, BitVec.and_twoPow]
  cases e.flags.getLsbD bit with
  | false => simp
  | true =>
      have hbit : (BitVec.twoPow 64 bit).getLsbD bit = true := by
        rw [BitVec.getLsbD_twoPow]
        simp
        omega
      simp only [if_true, iff_true]
      intro hzero
      rw [hzero] at hbit
      exact absurd hbit (by simp)

private theorem writable_iff (e : ProcessEnvironment) :
    e.flags &&& shiftedOne processEnvironmentWritable ≠ 0 ↔ e.writable = true :=
  e.flag_iff (by decide)

end ProcessEnvironment

end Addresses

/-! ## Mapping the segments one after the other -/

/-- The tables after the segments `done` have been mapped, starting from `s₀`. -/
structure SegmentsMapped (root : BitVec 64) (s₀ : Paging) (done : List ProcessEnvironment)
    (s : Paging) : Prop where
  tree : s.WellFormedTree root
  translate : ∀ address, Canonical address → ∀ page,
    translate s.memory root address = some page ↔
      ∃ e ∈ done, e.Covers address ∧ page = e.target address
  writes : ∀ path index, path.length ≤ 3 → (s.Writes root path index ↔
    s₀.Writes root path index ∨ ∃ e ∈ done, e.writable = true ∧
      ∃ i < e.pages.toNat, path ++ [index] <+: walkIndexes (e.page i))

section Segments

variable {root : BitVec 64} {s₀ s t : Paging} {done environment : List ProcessEnvironment}
  {e : ProcessEnvironment} {last : Nat}

private theorem translate_congr {memory : BitVec 52 → BitVec 9 → BitVec 64}
    {address address' : BitVec 64} (h : walkIndexes address = walkIndexes address') :
    translate memory root address = translate memory root address' := by
  rw [translate, translate, h]

private theorem mapSegment_translate (h : SegmentsMapped root s₀ done s) (hvalid : e.Valid)
    (hapart : ∀ e' ∈ done, e'.Apart e)
    (hpages : MappedPages root e.page e.frame e.pages.toNat s t) {address : BitVec 64}
    (hcanonical : Canonical address) (page : BitVec 52) :
    translate t.memory root address = some page ↔
      ∃ e' ∈ done ++ [e], e'.Covers address ∧ page = e'.target address := by
  by_cases hcovers : e.Covers address
  · obtain ⟨i, hi, hwalk⟩ := (hvalid.covers_iff hcanonical).mp hcovers
    have hmapped := hpages.mapped i hi ?_
    · rw [translate_congr hwalk, hmapped, ← hvalid.target_eq hcanonical hi hwalk,
        Option.some.injEq]
      constructor
      · intro heq
        exact ⟨e, by simp, hcovers, heq.symm⟩
      · rintro ⟨e', he', hcovers', hpage⟩
        rcases List.mem_append.mp he' with he' | he'
        · exact absurd hcovers ((hapart e' he').not_covers hcovers')
        · rw [hpage, List.mem_singleton.mp he']
    · intro j hij hj heq
      rw [walkIndexes_eq_iff_page (hvalid.page_canonical hi) (hvalid.page_canonical hj),
        hvalid.page_toNat hi, hvalid.page_toNat hj] at heq
      omega
  · rw [hpages.other address, h.translate address hcanonical page]
    · constructor
      · rintro ⟨e', he', hrest⟩
        exact ⟨e', List.mem_append_left _ he', hrest⟩
      · rintro ⟨e', he', hcovers', hpage⟩
        rcases List.mem_append.mp he' with he' | he'
        · exact ⟨e', he', hcovers', hpage⟩
        · rw [List.mem_singleton.mp he'] at hcovers'
          exact absurd hcovers' hcovers
    · intro i hi hwalk
      exact hcovers ((hvalid.covers_iff hcanonical).mpr ⟨i, hi, hwalk⟩)

/-- The state after one round of the loop. -/
def mapSegment (root : BitVec 64) (e : ProcessEnvironment) (s : Paging) : Paging :=
  if e.flags &&& shiftedOne processEnvironmentWritable ≠ 0 then
    pagingSetAttribute root e.virtualAddress e.pages .writable true
      (mapPages root e.page e.frame e.pages.toNat s)
  else mapPages root e.page e.frame e.pages.toNat s

private theorem mapSegment_mapped (h : SegmentsMapped root s₀ done s) (hvalid : e.Valid)
    (hapart : ∀ e' ∈ done, e'.Apart e) (hfresh : s.FreshAnswers root last)
    (hlast : (mapPages root e.page e.frame e.pages.toNat s).requests ≤ last) :
    SegmentsMapped root s₀ (done ++ [e]) (mapSegment root e s) ∧
      (mapSegment root e s).FreshAnswers root last := by
  have hpages := mapPages_mapped h.tree.1 (fun i hi => hvalid.isFrameAddress hi)
    (hfresh.mono hlast)
  rw [mapSegment]
  generalize mapPages root e.page e.frame e.pages.toNat s = t at hlast hpages ⊢
  have htree : t.WellFormedTree root := hpages.wellFormedTree h.tree hpages.tree
  have htranslate : ∀ address, Canonical address → ∀ page,
      translate t.memory root address = some page ↔
        ∃ e' ∈ done ++ [e], e'.Covers address ∧ page = e'.target address :=
    fun address hcanonical page => mapSegment_translate h hvalid hapart hpages hcanonical page
  by_cases hw : e.flags &&& shiftedOne processEnvironmentWritable ≠ 0
  · rw [if_pos hw]
    have hwritable := e.writable_iff.mp hw
    have hallowed := pagingSetAttribute_allowed e.virtualAddress e.pages hpages.tree ?_
    · refine ⟨⟨hallowed.wellFormedTree htree, ?_, ?_⟩,
        hallowed.freshAnswers (hpages.freshAnswers hfresh)⟩
      · intro address hcanonical page
        rw [hallowed.translate]
        exact htranslate address hcanonical page
      · intro path index hpath
        rw [hallowed.writes path index hpath, hpages.writes index hpath,
          h.writes path index hpath, or_assoc]
        apply or_congr_right
        simp only [List.mem_append, List.mem_singleton]
        constructor
        · rintro (⟨e', he', hrest⟩ | ⟨-, hrest⟩)
          · exact ⟨e', .inl he', hrest⟩
          · exact ⟨e, .inr rfl, hwritable, hrest⟩
        · rintro ⟨e', he' | rfl, hrest⟩
          · exact .inl ⟨e', he', hrest⟩
          · exact .inr ⟨by simp, hrest.2⟩
    · intro i hi
      have hcanonical := hvalid.page_canonical hi
      exact ⟨_, (htranslate (e.page i) hcanonical _).mpr
        ⟨e, by simp, (hvalid.covers_iff hcanonical).mpr ⟨i, hi, rfl⟩, rfl⟩⟩
  · rw [if_neg hw]
    refine ⟨⟨htree, htranslate, ?_⟩, hpages.freshAnswers hfresh⟩
    intro path index hpath
    rw [hpages.writes index hpath, h.writes path index hpath]
    apply or_congr_right
    simp only [List.mem_append, List.mem_singleton]
    constructor
    · rintro ⟨e', he', hrest⟩
      exact ⟨e', .inl he', hrest⟩
    · rintro ⟨e', he' | rfl, hrest⟩
      · exact ⟨e', he', hrest⟩
      · exact absurd (e'.writable_iff.mpr hrest.1) hw

private theorem mapSegment_requests (root : BitVec 64) (e : ProcessEnvironment) (s : Paging) :
    (mapSegment root e s).requests = (mapPages root e.page e.frame e.pages.toNat s).requests := by
  rw [mapSegment]
  split
  · exact pagingSetAttribute_requests ..
  · rfl

private theorem processPagemapLoop_eq (hlimit : ∀ e ∈ environment, e.pages.toNat ≤ 2 ^ 19)
    (s : Paging) : processPagemapLoop root environment s =
      some (environment.foldl (fun s e => mapSegment root e s) s) := by
  induction environment generalizing s with
  | nil => rfl
  | cons e environment ih =>
      rw [processPagemapLoop, pagingMap_small (hlimit e List.mem_cons_self)]
      exact ih (fun e' he' => hlimit e' (List.mem_cons_of_mem _ he')) (mapSegment root e s)

private theorem processPagemapLoop_returns (root : BitVec 64)
    (environment : List ProcessEnvironment)
    (s : Paging) : ∃ t, processPagemapLoop root environment s = some t := by
  induction environment generalizing s with
  | nil => exact ⟨s, rfl⟩
  | cons e environment ih =>
      obtain ⟨t, ht⟩ := pagingMap_returns root e.virtualAddress e.physicalAddress e.pages s
      rw [processPagemapLoop, ht]
      exact ih _

theorem processPagemap_returns (environment : List ProcessEnvironment) (s : Paging) :
    ∃ pml4 t, processPagemap environment s = some (pml4, t) := by
  obtain ⟨t, ht⟩ := processPagemapLoop_returns (s.answers s.requests) environment
    { s with requests := s.requests + 1 }
  refine ⟨s.answers s.requests, t, ?_⟩
  rw [processPagemap]
  change (processPagemapLoop (s.answers s.requests) environment _).bind _ = _
  rw [ht]
  rfl

private theorem mapSegments_requests (environment : List ProcessEnvironment) (s : Paging) :
    s.requests ≤ (environment.foldl (fun s e => mapSegment root e s) s).requests := by
  induction environment generalizing s with
  | nil => exact le_rfl
  | cons e environment ih =>
      have hsegment : s.requests ≤ (mapSegment root e s).requests := by
        rw [mapSegment_requests]
        exact (mapPages_requests ..).1
      exact hsegment.trans (ih (mapSegment root e s))

private theorem mapSegments_mapped (h : SegmentsMapped root s₀ done s)
    (hvalid : ∀ e ∈ environment, e.Valid)
    (hapart : (done ++ environment).Pairwise ProcessEnvironment.Apart)
    (hfresh : s.FreshAnswers root last)
    (hlast : (environment.foldl (fun s e => mapSegment root e s) s).requests ≤ last) :
    SegmentsMapped root s₀ (done ++ environment)
      (environment.foldl (fun s e => mapSegment root e s) s) := by
  induction environment generalizing s done with
  | nil =>
      rw [List.append_nil]
      exact h
  | cons e environment ih =>
      have hbefore : ∀ e' ∈ done, e'.Apart e := by
        intro e' he'
        exact (List.pairwise_append.mp hapart).2.2 e' he' e List.mem_cons_self
      have hrest : (mapSegment root e s).requests ≤ last :=
        (mapSegments_requests environment _).trans hlast
      rw [mapSegment_requests] at hrest
      obtain ⟨hmapped, hfresh'⟩ := mapSegment_mapped h (hvalid e List.mem_cons_self) hbefore hfresh
        hrest
      rw [List.append_cons] at hapart ⊢
      exact ih hmapped (fun e' he' => hvalid e' (List.mem_cons_of_mem _ he')) hapart hfresh' hlast

theorem emptyRoot_mapped (s : Paging) (root : BitVec 64)
    (hcontent : ∀ i, (s.memory (pageNumber root) i).getLsbD PageDirectoryFlagBit.present.toNat =
        false ∧
      (s.memory (pageNumber root) i).getLsbD PageDirectoryFlagBit.largerpages.toNat = false) :
    (∀ i, entryTarget (s.memory (pageNumber root) i) = none) ∧ SegmentsMapped root s [] s := by
  have hempty : ∀ i, entryTarget (s.memory (pageNumber root) i) = none := by
    intro i
    apply entryTarget_absent
    rw [getBit_eq (by decide)]
    exact (hcontent i).1
  refine ⟨hempty, ⟨?_, ?_⟩, ?_, ?_⟩
  · intro p q k _ _ hp hq
    rw [(table_of_emptyRoot hempty hp).1, (table_of_emptyRoot hempty hq).1]
  · intro path index entry _ hentry
    rw [Paging.entry_eq, Option.map_eq_some_iff] at hentry
    obtain ⟨k, hk, rfl⟩ := hentry
    rw [(table_of_emptyRoot hempty hk).2]
    exact (hcontent index).2
  · intro address _ page
    constructor
    · intro h
      exact absurd (table_of_emptyRoot hempty h).1 (by simp [walkIndexes])
    · rintro ⟨e, he, -⟩
      exact absurd he (by simp)
  · intro path index _
    simp

private theorem ValidEnvironment.eq_of_covers (h : ValidEnvironment environment)
    {e e' : ProcessEnvironment}
    {address : BitVec 64} (he : e ∈ environment) (he' : e' ∈ environment)
    (hcovers : e.Covers address) (hcovers' : e'.Covers address) : e = e' := by
  by_contra hne
  exact (h.apart.forall he he' hne).not_covers hcovers hcovers'

private theorem SegmentsMapped.writable_iff (h : SegmentsMapped root s₀ environment s)
    (hempty : ∀ i, entryTarget (s₀.memory (pageNumber root) i) = none)
    (henvironment : ValidEnvironment environment) {address : BitVec 64}
    (hcanonical : Canonical address) (he : e ∈ environment) (hcovers : e.Covers address) :
    (∀ p i, p ++ [i] <+: walkIndexes address → s.Writes root p i) ↔ e.writable = true := by
  constructor
  · intro hall
    have hleaf := hall [address.extractLsb' 39 9, address.extractLsb' 30 9,
      address.extractLsb' 21 9] (address.extractLsb' 12 9) List.prefix_rfl
    rw [h.writes _ _ le_rfl] at hleaf
    rcases hleaf with ⟨entry, hentry, -⟩ | ⟨e', he', hwritable, i, hi, hwalk⟩
    · obtain ⟨k, hk, -⟩ := Option.map_eq_some_iff.mp hentry
      exact absurd (table_of_emptyRoot hempty hk).1 (by simp)
    · have hcovers' : e'.Covers address :=
        ((henvironment.valid e' he').covers_iff hcanonical).mpr
          ⟨i, hi, hwalk.eq_of_length rfl⟩
      rwa [henvironment.eq_of_covers he he' hcovers hcovers']
  · intro hwritable p i hp
    obtain ⟨j, hj, hwalk⟩ := ((henvironment.valid e he).covers_iff hcanonical).mp hcovers
    rw [h.writes p i (length_le_of_concat_isPrefix hp)]
    exact .inr ⟨e, he, hwritable, j, hj, hwalk ▸ hp⟩

/-- What the processor makes of the tables once all segments are mapped. -/
theorem SegmentsMapped.exact (h : SegmentsMapped root s₀ environment s)
    (hempty : ∀ i, entryTarget (s₀.memory (pageNumber root) i) = none)
    (henvironment : ValidEnvironment environment) : PagemapExact environment root s := by
  intro address hcanonical page writable
  rw [h.tree.resolve_iff, h.translate address hcanonical]
  constructor
  · rintro ⟨⟨e, he, hcovers, htarget⟩, hwritable⟩
    refine ⟨e, he, hcovers, htarget, ?_⟩
    rw [Bool.eq_iff_iff, hwritable, h.writable_iff hempty henvironment hcanonical he hcovers]
  · rintro ⟨e, he, hcovers, htarget, rfl⟩
    exact ⟨⟨e, he, hcovers, htarget⟩,
      (h.writable_iff hempty henvironment hcanonical he hcovers).symm⟩

private theorem processPagemap_eq (hlimit : ∀ e ∈ environment, e.pages.toNat ≤ 2 ^ 19)
    (s : Paging) : processPagemap environment s = some (s.answers s.requests,
      environment.foldl (fun t e => mapSegment (s.answers s.requests) e t)
        { s with requests := s.requests + 1 }) := by
  rw [processPagemap]
  change (processPagemapLoop (s.answers s.requests) environment _).bind _ = _
  rw [processPagemapLoop_eq hlimit]
  rfl

theorem processPagemap_readonly (hpages : e.pages.toNat < 2 ^ 31) (h : e.writable = false)
    (s : Paging) :
    processPagemap [e] s = some (s.answers s.requests,
      mapPages (s.answers s.requests)
        (fun i => e.virtualAddress + pagingMapOffset (BitVec.ofNat 32 i))
        (fun i => e.physicalAddress + pagingMapOffset (BitVec.ofNat 32 i)) e.pages.toNat
        { s with requests := s.requests + 1 }) := by
  have hflag : ¬(e.flags &&& shiftedOne processEnvironmentWritable ≠ 0) := by
    rw [e.writable_iff, h]
    decide
  rw [processPagemap]
  change (processPagemapLoop (s.answers s.requests) [e] _).bind _ = _
  rw [processPagemapLoop, pagingMap_eq hpages]
  change (processPagemapLoop (s.answers s.requests) [] (if _ then _ else _)).bind _ = _
  rw [if_neg hflag]
  rfl

theorem pagemapCorrect_of_emptyRoot {content : BitVec 9 → BitVec 64} {limit : Nat}
    (hcontent : ∀ i, (content i).getLsbD PageDirectoryFlagBit.present.toNat = false ∧
      (content i).getLsbD PageDirectoryFlagBit.largerpages.toNat = false)
    (hlimit : limit ≤ 2 ^ 19) : PagemapCorrect content limit := by
  intro s environment hroot henvironment hpages
  refine ⟨_, _, processPagemap_eq (fun e he => (hpages e he).trans hlimit) s, ?_⟩
  intro hsupplied
  obtain ⟨hempty, hmapped⟩ := emptyRoot_mapped { s with requests := s.requests + 1 }
    (s.answers s.requests) (fun i => hroot ▸ hcontent i)
  have hdone := mapSegments_mapped hmapped henvironment.valid henvironment.apart
    (hsupplied.freshAnswers_root rfl rfl hempty) le_rfl
  exact hdone.exact hempty henvironment

end Segments

end VisualOS.Kernel
