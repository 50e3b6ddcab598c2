import VisualOS.Framework.Rewriting
import VisualOS.Memory.PagingMap

/-!
# Page attributes

`paging_set_attribute` sets one flag in the entries of all four levels over a page.  What a
program may do with a page depends on all of them.
-/

namespace VisualOS.Kernel

open Framework

/-- The block of `paging_set_attribute` for one level, which is written out four times. -/
def pagingSetLevel (table : BitVec 64) (index : BitVec 9) (flag : PageDirectoryFlagBit)
    (enabled : Bool) (s : Paging) : BitVec 64 × Paging :=
  let entry := s.read table index
  let entry := setBit entry flag.toNat enabled
  (pagingGetEntryAddress entry <<< 12, s.write table index entry)

/-- The body of the loop of `paging_set_attribute`. -/
def pagingSetAttributePage (pagetableL4 address : BitVec 64) (flag : PageDirectoryFlagBit)
    (enabled : Bool) (s : Paging) : Paging :=
  let indexes := pagingGetIndexes address
  let (pagetableL3, s) := pagingSetLevel pagetableL4 indexes.L4_i flag enabled s
  let (pagetableL2, s) := pagingSetLevel pagetableL3 indexes.L3_i flag enabled s
  let (pagetableL1, s) := pagingSetLevel pagetableL2 indexes.L2_i flag enabled s
  (pagingSetLevel pagetableL1 indexes.L1_i flag enabled s).2

/-- `flag` is the argument `attribute`. -/
def pagingSetAttribute (pagetableL4 virtualAddress pages : BitVec 64)
    (flag : PageDirectoryFlagBit) (enabled : Bool) (s : Paging) : Paging :=
  (List.range pages.toNat).foldl (fun s i =>
    pagingSetAttributePage pagetableL4 (virtualAddress + BitVec.ofNat 64 i * 4096#64) flag
      enabled s) s

/-- What the processor makes of an address: the page, and whether it may be written, which every
entry on the way has to allow.  Above the last level an entry with the large-page bit leads to
no table. -/
def resolve (memory : BitVec 52 → BitVec 9 → BitVec 64) (page : BitVec 52) (writable : Bool) :
    List (BitVec 9) → Option (BitVec 52 × Bool)
  | [] => some (page, writable)
  | index :: rest =>
      let entry := memory page index
      if (entry.getLsbD PageDirectoryFlagBit.largerpages.toNat && !rest.isEmpty) = true then none
      else (entryTarget entry).bind fun next =>
        resolve memory next (writable && entry.getLsbD PageDirectoryFlagBit.writable.toNat) rest

section Resolve

variable {memory : BitVec 52 → BitVec 9 → BitVec 64} {k page : BitVec 52} {w w' : Bool}
  {path : List (BitVec 9)}

private theorem concat_prefix_cons {p rest : List (BitVec 9)} {i index : BitVec 9} :
    p ++ [i] <+: index :: rest ↔
      p = [] ∧ i = index ∨ ∃ p', p = index :: p' ∧ p' ++ [i] <+: rest := by
  cases p with
  | nil => simp [List.cons_prefix_cons]
  | cons j p =>
      rw [List.cons_append, List.cons_prefix_cons]
      simp

private theorem resolve_eq_some
    (hlarge : ∀ p i entry, p ++ [i] <+: path → p.length + 1 < path.length →
      lookup entryTarget memory k p i = some entry →
      entry.getLsbD PageDirectoryFlagBit.largerpages.toNat = false) :
    resolve memory k w path = some (page, w') ↔
      descend entryTarget memory k path = some page ∧
      (w' = true ↔ w = true ∧ ∀ p i, p ++ [i] <+: path → ∃ entry,
        lookup entryTarget memory k p i = some entry ∧
          entry.getLsbD PageDirectoryFlagBit.writable.toNat = true) := by
  induction path generalizing k w with
  | nil =>
      rw [resolve, descend, Option.some.injEq, Option.some.injEq, Prod.mk.injEq]
      cases w <;> cases w' <;> simp
  | cons index rest ih =>
      have hhere : ((memory k index).getLsbD PageDirectoryFlagBit.largerpages.toNat &&
          !rest.isEmpty) = false := by
        cases rest with
        | nil => rw [List.isEmpty_nil, Bool.not_true, Bool.and_false]
        | cons j rest =>
            rw [hlarge [] index _ (by simp [List.cons_prefix_cons]) (by simp) rfl, Bool.false_and]
      rw [resolve, hhere, if_neg (by simp), descend]
      cases htarget : entryTarget (memory k index) with
      | none => simp
      | some next =>
          have hlookup : ∀ p i, lookup entryTarget memory k (index :: p) i =
              lookup entryTarget memory next p i := by
            intro p i
            rw [lookup, lookup, descend, htarget]
            rfl
          rw [Option.bind_some, Option.bind_some, ih]
          · apply and_congr_right
            intro _
            apply iff_congr Iff.rfl
            rw [Bool.and_eq_true, and_assoc]
            apply and_congr_right
            intro _
            constructor
            · intro h p i hprefix
              rcases concat_prefix_cons.mp hprefix with ⟨rfl, rfl⟩ | ⟨p', rfl, hp'⟩
              · exact ⟨_, rfl, h.1⟩
              · rw [hlookup]
                exact h.2 p' i hp'
            · intro h
              constructor
              · obtain ⟨entry, hentry, hw⟩ := h [] index (by simp [List.cons_prefix_cons])
                obtain rfl : memory k index = entry := Option.some.inj hentry
                exact hw
              · intro p i hp
                rw [← hlookup]
                exact h (index :: p) i (List.cons_prefix_cons.mpr ⟨rfl, hp⟩)
          · intro p i entry hp hlength hentry
            apply hlarge (index :: p) i entry (List.cons_prefix_cons.mpr ⟨rfl, hp⟩)
            · simpa using hlength
            · rw [hlookup, hentry]

end Resolve

/-! ## Allowing writes -/

/-- The entry at the end of a path allows writes. -/
def Paging.Writes (s : Paging) (root : BitVec 64) (path : List (BitVec 9)) (index : BitVec 9) :
    Prop :=
  ∃ entry, s.entry root path index = some entry ∧
    entry.getLsbD PageDirectoryFlagBit.writable.toNat = true

/-- In a tree without large pages the processor resolves what the tables translate. -/
theorem Paging.WellFormedTree.resolve_iff {root address : BitVec 64} {s : Paging}
    {page : BitVec 52} {w : Bool} (h : s.WellFormedTree root) :
    resolve s.memory (pageNumber root) true (walkIndexes address) = some (page, w) ↔
      translate s.memory root address = some page ∧
        (w = true ↔ ∀ p i, p ++ [i] <+: walkIndexes address → s.Writes root p i) := by
  have hlarge : ∀ p i entry, p ++ [i] <+: walkIndexes address →
      p.length + 1 < (walkIndexes address).length →
      lookup entryTarget s.memory (pageNumber root) p i = some entry →
      entry.getLsbD PageDirectoryFlagBit.largerpages.toNat = false := by
    intro p i entry _ hlt hentry
    exact h.2 p i entry (Nat.lt_of_succ_lt_succ hlt) hentry
  rw [resolve_eq_some hlarge, eq_self, true_and]
  rfl

theorem length_le_of_concat_isPrefix {address : BitVec 64} {p : List (BitVec 9)} {i : BitVec 9}
    (h : p ++ [i] <+: walkIndexes address) : p.length ≤ 3 := by
  have hle := h.length_le
  rw [List.length_append, show (walkIndexes address).length = 4 from rfl] at hle
  exact Nat.le_of_succ_le_succ hle

theorem Extends.writes {root : BitVec 64} {s t : Paging} (h : Extends root s t)
    {path : List (BitVec 9)} (index : BitVec 9) (hpath : path.length ≤ 3) :
    t.Writes root path index ↔ s.Writes root path index := by
  have hflag : ∀ entry, t.entry root path index = some entry →
      entry.getLsbD PageDirectoryFlagBit.writable.toNat =
        ((s.entry root path index).getD 0).getLsbD PageDirectoryFlagBit.writable.toNat :=
    fun entry hentry => h.flags path index entry hpath hentry
      PageDirectoryFlagBit.writable.toNat (by decide) (by decide) (by decide)
  constructor
  · rintro ⟨entry, hentry, hw⟩
    rw [hflag entry hentry] at hw
    cases hold : s.entry root path index with
    | none => simp [hold] at hw
    | some old => exact ⟨old, hold, by rwa [hold] at hw⟩
  · rintro ⟨old, hold, hw⟩
    obtain ⟨k, hk, -⟩ := Option.map_eq_some_iff.mp hold
    have hentry : t.entry root path index = some (t.memory k index) := by
      rw [Paging.entry_eq, h.tables path k hpath hk]
      rfl
    refine ⟨_, hentry, ?_⟩
    rw [hflag _ hentry, hold]
    exact hw

/-- The same tables, with writes allowed at further entries. -/
structure Allowed (root : BitVec 64) (cells : List (BitVec 9) → Prop) (s t : Paging) : Prop where
  answers : t.answers = s.answers
  requests : t.requests = s.requests
  tables : ∀ path, t.table root path = s.table root path
  large : ∀ path index entry, path.length ≤ 3 → t.entry root path index = some entry →
    ∃ old, s.entry root path index = some old ∧
      entry.getLsbD PageDirectoryFlagBit.largerpages.toNat =
        old.getLsbD PageDirectoryFlagBit.largerpages.toNat
  writes : ∀ path index, path.length ≤ 3 →
    (t.Writes root path index ↔ s.Writes root path index ∨ cells (path ++ [index]))

namespace Allowed

variable {root : BitVec 64} {cells : List (BitVec 9) → Prop} {s t : Paging} {last : Nat}

private theorem tree (h : Allowed root cells s t) (htree : s.Tree root) : t.Tree root :=
  Separated.congr htree h.tables

theorem wellFormedTree (h : Allowed root cells s t) (htree : s.WellFormedTree root) :
    t.WellFormedTree root := by
  refine ⟨h.tree htree.1, ?_⟩
  intro path index entry hpath hentry
  obtain ⟨old, hold, heq⟩ := h.large path index entry hpath.le hentry
  rw [heq]
  exact htree.2 path index old hpath hold

theorem freshAnswers (h : Allowed root cells s t) (hfresh : s.FreshAnswers root last) :
    t.FreshAnswers root last where
  frame n hn hlt := by
    rw [h.answers]
    exact hfresh.frame n (h.requests ▸ hn) hlt
  unlinked := by
    intro n hn hlt path hpath hk
    rw [h.answers] at hk
    exact hfresh.unlinked n (h.requests ▸ hn) hlt path hpath ((h.tables path).symm.trans hk)
  distinct m n hm hmn hlt := by
    rw [h.answers]
    exact hfresh.distinct m n (h.requests ▸ hm) hmn hlt

theorem translate (h : Allowed root cells s t) (address : BitVec 64) :
    translate t.memory root address = translate s.memory root address :=
  h.tables (walkIndexes address)

end Allowed

section SetAttribute

variable {root virtualAddress pages : BitVec 64} {s t : Paging} {flag : PageDirectoryFlagBit}
  {enabled : Bool}

/-- The table under an entry, as the kernel goes down. -/
def entryLink (entry : BitVec 64) : BitVec 52 := pageNumber (pagingGetEntryAddress entry <<< 12)

theorem entryLink_of_target (entry : BitVec 64) (k : BitVec 52) (h : entryTarget entry = some k) :
    entryLink entry = k := by
  have hpresent : getBit entry PageDirectoryFlagBit.present.toNat ≠ false := by
    intro habsent
    rw [entryTarget_absent habsent] at h
    exact absurd h (by simp)
  rwa [entryTarget_present hpresent, Option.some.injEq] at h

private theorem entryTarget_setBit (entry : BitVec 64) {bit : Nat} (hpos : 0 < bit)
    (hlow : bit < 12)
    (value : Bool) : entryTarget (setBit entry bit value) = entryTarget entry := by
  apply entryTarget_congr
  intro i hi
  rw [getLsbD_setBit (by omega) value (by omega), if_neg (by omega)]

/-- The walks over the pages of a range. -/
def rangeWalks (virtualAddress : BitVec 64) (n : Nat) : List (List (BitVec 9)) :=
  (List.range n).map fun i => walkIndexes (virtualAddress + BitVec.ofNat 64 i * 4096#64)

private theorem pagingSetAttributePage_eq (address : BitVec 64) :
    pagingSetAttributePage root address flag enabled s =
      { s with
        memory := rewriteWalk (fun entry => setBit entry flag.toNat enabled) entryLink s.memory
          (pageNumber root) (walkIndexes address) } := by
  rw [walkIndexes_eq, pagingSetAttributePage]
  generalize pagingGetIndexes address = indexes
  simp only [pagingSetLevel, Paging.read, Paging.write, rewriteWalk, rewriteEntry, entryLink]

private theorem pagingSetAttribute_eq :
    pagingSetAttribute root virtualAddress pages flag enabled s =
      { s with
        memory := rewriteWalks (fun entry => setBit entry flag.toNat enabled) entryLink
          (pageNumber root) s.memory (rangeWalks virtualAddress pages.toNat) } := by
  rw [pagingSetAttribute, rangeWalks]
  generalize List.range pages.toNat = l
  induction l generalizing s with
  | nil => rfl
  | cons i l ih =>
      rw [List.foldl_cons, ih, pagingSetAttributePage_eq]
      rfl

theorem pagingSetAttribute_requests (virtualAddress pages : BitVec 64)
    (flag : PageDirectoryFlagBit) (enabled : Bool) (s : Paging) :
    (pagingSetAttribute root virtualAddress pages flag enabled s).requests = s.requests := by
  rw [pagingSetAttribute_eq]

/-- The entries on the walks over a range. -/
def rangeCells (root virtualAddress pages : BitVec 64) (s : Paging) :
    Set (BitVec 52 × BitVec 9) :=
  {c | ∃ i < pages.toNat, c ∈ cellsOn entryTarget s.memory (pageNumber root)
    (walkIndexes (virtualAddress + BitVec.ofNat 64 i * 4096#64))}

/-- All pages of the range are mapped. -/
def RangeMapped (root virtualAddress pages : BitVec 64) (s : Paging) : Prop :=
  ∀ i < pages.toNat, ∃ page,
    translate s.memory root (virtualAddress + BitVec.ofNat 64 i * 4096#64) = some page

private theorem mem_rangeCells {c : BitVec 52 × BitVec 9} :
    c ∈ rangeCells root virtualAddress pages s ↔
      c ∈ (rangeWalks virtualAddress pages.toNat).flatMap
        (cellsOn entryTarget s.memory (pageNumber root)) := by
  simp [rangeCells, rangeWalks, List.mem_flatMap]

/-- The kernel rewrites the entries on the walks, if those that it does rewrite lead where they led
before. -/
theorem pagingSetAttribute_rewritten
    (ht : pagingSetAttribute root virtualAddress pages flag enabled s = t)
    (hmapped : RangeMapped root virtualAddress pages s)
    (hkeeps : ∀ k i, (k, i) ∈ rangeCells root virtualAddress pages s →
      t.memory k i = setBit (s.memory k i) flag.toNat enabled →
        entryTarget (setBit (s.memory k i) flag.toNat enabled) = entryTarget (s.memory k i)) :
    Rewritten (fun entry => setBit entry flag.toNat enabled)
      (rangeCells root virtualAddress pages s) s.memory t.memory := by
  have hidem : ∀ entry, setBit (setBit entry flag.toNat enabled) flag.toNat enabled =
      setBit entry flag.toNat enabled := fun entry => setBit_setBit entry _ _
  rw [pagingSetAttribute_eq] at ht
  subst ht
  have hwalks : Rewritten _ _ s.memory (rewriteWalks (fun entry => setBit entry flag.toNat enabled)
      entryLink (pageNumber root) s.memory (rangeWalks virtualAddress pages.toNat)) :=
    rewriteWalks_rewritten hidem
  have hvisited := visitedAll_eq hidem entryLink_of_target
    (show ∀ path ∈ rangeWalks virtualAddress pages.toNat,
        descend entryTarget s.memory (pageNumber root) path ≠ none by
      intro path hpath
      obtain ⟨i, hi, rfl⟩ := List.mem_map.mp hpath
      obtain ⟨page, hpage⟩ := hmapped i (List.mem_range.mp hi)
      exact fun hnone => absurd (hpage.symm.trans hnone) (by simp))
    (fun c hc hcell => hkeeps c.1 c.2 (mem_rangeCells.mpr hcell) (hwalks.inside c.1 c.2 hc))
  apply hwalks.congr
  intro c
  rw [mem_rangeCells, ← hvisited]
  rfl

end SetAttribute

/-! ## Entries rewritten in a tree -/

/-- The same tables, with the entries at some ends of paths rewritten. -/
structure EntriesRewritten (root : BitVec 64) (f : BitVec 64 → BitVec 64)
    (cells : List (BitVec 9) → Prop) (s t : Paging) : Prop where
  answers : t.answers = s.answers
  requests : t.requests = s.requests
  tables : ∀ path, t.table root path = s.table root path
  inside : ∀ path index, path.length ≤ 3 → cells (path ++ [index]) →
    t.entry root path index = (s.entry root path index).map f
  outside : ∀ path index, path.length ≤ 3 → ¬cells (path ++ [index]) →
    t.entry root path index = s.entry root path index

section Entries

variable {root virtualAddress pages : BitVec 64} {s t : Paging} {f : BitVec 64 → BitVec 64}
  {cells : List (BitVec 9) → Prop}

theorem EntriesRewritten.of_rewritten {places : Set (BitVec 52 × BitVec 9)}
    (h : Rewritten f places s.memory t.memory)
    (hkeeps : Rewritten.Keeps entryTarget f s.memory places)
    (hplaces : ∀ path index k, path.length ≤ 3 → s.table root path = some k →
      ((k, index) ∈ places ↔ cells (path ++ [index])))
    (hanswers : t.answers = s.answers) (hrequests : t.requests = s.requests) :
    EntriesRewritten root f cells s t := by
  have htables : ∀ path, t.table root path = s.table root path := fun path => h.descend_eq hkeeps
  refine ⟨hanswers, hrequests, htables, ?_, ?_⟩
  · intro path index hpath hcell
    rw [Paging.entry_eq, Paging.entry_eq, htables]
    cases hk : s.table root path with
    | none => rfl
    | some k => exact congrArg some (h.inside k index ((hplaces path index k hpath hk).mpr hcell))
  · intro path index hpath hcell
    rw [Paging.entry_eq, Paging.entry_eq, htables]
    cases hk : s.table root path with
    | none => rfl
    | some k =>
        exact congrArg some (h.outside k index fun hmem =>
          hcell ((hplaces path index k hpath hk).mp hmem))

theorem EntriesRewritten.tree (h : EntriesRewritten root f cells s t) (htree : s.Tree root) :
    t.Tree root :=
  Separated.congr htree h.tables

/-- The ends of the paths over the pages of a range. -/
def OnRange (virtualAddress pages : BitVec 64) (cell : List (BitVec 9)) : Prop :=
  ∃ i < pages.toNat, cell <+: walkIndexes (virtualAddress + BitVec.ofNat 64 i * 4096#64)

theorem OnRange.entry {path : List (BitVec 9)} {index : BitVec 9}
    (h : OnRange virtualAddress pages (path ++ [index]))
    (hmapped : RangeMapped root virtualAddress pages s) :
    ∃ entry, s.entry root path index = some entry := by
  obtain ⟨i, hi, hprefix⟩ := h
  obtain ⟨page, hpage⟩ := hmapped i hi
  obtain ⟨k, hk⟩ := descend_of_isPrefix hpage ((List.prefix_append path [index]).trans hprefix)
  refine ⟨s.memory k index, ?_⟩
  rw [Paging.entry_eq, Paging.table, hk]
  rfl

theorem pagingSetAttribute_entries {flag : PageDirectoryFlagBit} {enabled : Bool}
    (htree : s.Tree root) (hpos : 0 < flag.toNat) (hlow : flag.toNat < 12)
    (hmapped : RangeMapped root virtualAddress pages s) :
    EntriesRewritten root (fun entry => setBit entry flag.toNat enabled)
      (OnRange virtualAddress pages) s
      (pagingSetAttribute root virtualAddress pages flag enabled s) := by
  have hkeeps : ∀ entry, entryTarget (setBit entry flag.toNat enabled) = entryTarget entry :=
    fun entry => entryTarget_setBit entry hpos hlow enabled
  apply EntriesRewritten.of_rewritten
    (pagingSetAttribute_rewritten rfl hmapped fun _ _ _ _ => hkeeps _) (fun _ _ _ => hkeeps _)
  · intro path index k hpath hk
    apply exists_congr
    intro i
    apply and_congr_right
    intro _
    exact htree.mem_cellsOn hk hpath (by simp [walkIndexes])
  · rw [pagingSetAttribute_eq]
  · rw [pagingSetAttribute_eq]

theorem pagingSetAttribute_allowed (virtualAddress pages : BitVec 64) (htree : s.Tree root)
    (hmapped : RangeMapped root virtualAddress pages s) :
    Allowed root (fun cell => cell ≠ [] ∧ ∃ i < pages.toNat,
        cell <+: walkIndexes (virtualAddress + BitVec.ofNat 64 i * 4096#64)) s
      (pagingSetAttribute root virtualAddress pages .writable true s) := by
  have h : EntriesRewritten root _ (OnRange virtualAddress pages) s
      (pagingSetAttribute root virtualAddress pages .writable true s) :=
    pagingSetAttribute_entries htree (by decide) (by decide) hmapped
  generalize pagingSetAttribute root virtualAddress pages .writable true s = t at h ⊢
  refine ⟨h.answers, h.requests, h.tables, ?_, ?_⟩
  · intro path index entry hpath hentry
    by_cases hcell : OnRange virtualAddress pages (path ++ [index])
    · rw [h.inside path index hpath hcell, Option.map_eq_some_iff] at hentry
      obtain ⟨old, hold, rfl⟩ := hentry
      exact ⟨old, hold, getLsbD_setBit (by decide) true (by decide)⟩
    · rw [h.outside path index hpath hcell] at hentry
      exact ⟨entry, hentry, rfl⟩
  · intro path index hpath
    have hne : path ++ [index] ≠ [] := by simp
    rw [Paging.Writes, Paging.Writes]
    by_cases hcell : OnRange virtualAddress pages (path ++ [index])
    · obtain ⟨entry, hentry⟩ := hcell.entry hmapped
      have hset : (setBit entry PageDirectoryFlagBit.writable.toNat true).getLsbD
          PageDirectoryFlagBit.writable.toNat = true := by
        rw [getLsbD_setBit (by decide) true (by decide), if_pos rfl]
      rw [h.inside path index hpath hcell, hentry]
      exact iff_of_true ⟨_, rfl, hset⟩ (.inr ⟨hne, hcell⟩)
    · have hnot : ¬(path ++ [index] ≠ [] ∧ OnRange virtualAddress pages (path ++ [index])) :=
        fun hand => hcell hand.2
      rw [h.outside path index hpath hcell]
      exact (or_iff_left hnot).symm

end Entries

end VisualOS.Kernel
