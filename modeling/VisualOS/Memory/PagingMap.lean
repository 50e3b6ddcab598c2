import VisualOS.Memory.Paging

/-!
# Mapping one page

`paging_map_page` goes down three levels, creating the tables that are missing, and writes
one entry of the last.  Going down a level keeps every translation; the last write changes the
translation of one page.
-/

namespace VisualOS.Kernel

open Framework

namespace Paging

/-- The table at the end of a path from the root. -/
def table (s : Paging) (root : BitVec 64) (path : List (BitVec 9)) : Option (BitVec 52) :=
  descend entryTarget s.memory (pageNumber root) path

def entry (s : Paging) (root : BitVec 64) (path : List (BitVec 9)) (index : BitVec 9) :
    Option (BitVec 64) :=
  lookup entryTarget s.memory (pageNumber root) path index

private theorem table_concat (s : Paging) (root : BitVec 64) (path : List (BitVec 9))
    (index : BitVec 9) : s.table root (path ++ [index]) =
      (s.table root path).bind fun k => entryTarget (s.memory k index) :=
  descend_concat

theorem entry_eq (s : Paging) (root : BitVec 64) (path : List (BitVec 9)) (index : BitVec 9) :
    s.entry root path index = (s.table root path).map fun k => s.memory k index := rfl

/-- Every table of the four levels is linked from one place only. -/
abbrev Tree (s : Paging) (root : BitVec 64) : Prop :=
  Separated entryTarget s.memory (pageNumber root) 3

/-- A tree in which no entry above the last level has the large-page bit; in an absent entry
the bit would take effect once a table is linked there. -/
def WellFormedTree (s : Paging) (root : BitVec 64) : Prop :=
  s.Tree root ∧ ∀ path index entry, path.length < 3 → s.entry root path index = some entry →
    entry.getLsbD PageDirectoryFlagBit.largerpages.toNat = false

/-- The requests up to the given number are answered with frames that are distinct and not
tables of the tree. -/
structure FreshAnswers (s : Paging) (root : BitVec 64) (last : Nat) : Prop where
  frame : ∀ n, s.requests ≤ n → n < last → IsFrameAddress (s.answers n)
  unlinked : ∀ n, s.requests ≤ n → n < last →
    Unreached entryTarget s.memory (pageNumber root) 3 (pageNumber (s.answers n))
  distinct : ∀ m n, s.requests ≤ m → m < n → n < last → s.answers m ≠ s.answers n

theorem FreshAnswers.mono {s : Paging} {root : BitVec 64} {last last' : Nat}
    (h : s.FreshAnswers root last) (hle : last' ≤ last) : s.FreshAnswers root last' where
  frame n hn hlt := h.frame n hn (hlt.trans_le hle)
  unlinked n hn hlt := h.unlinked n hn (hlt.trans_le hle)
  distinct m n hm hmn hlt := h.distinct m n hm hmn (hlt.trans_le hle)

end Paging

/-- The two entries agree on all bits but the present bit and the address. -/
def SameFlags (e e' : BitVec 64) : Prop :=
  ∀ b < 64, b ≠ 0 → ¬(12 ≤ b ∧ b < 52) → e'.getLsbD b = e.getLsbD b

theorem SameFlags.refl (e : BitVec 64) : SameFlags e e := fun _ _ _ _ => rfl

theorem SameFlags.trans {e₁ e₂ e₃ : BitVec 64} (h : SameFlags e₁ e₂) (h' : SameFlags e₂ e₃) :
    SameFlags e₁ e₃ :=
  fun b hb hb0 hb' => (h' b hb hb0 hb').trans (h b hb hb0 hb')

theorem sameFlags_linkedEntry (entry address : BitVec 64) :
    SameFlags entry (pagingSetEntryAddress entry (address >>> 12) |||
      shiftedOne PageDirectoryFlagBit.present.toNat) := by
  intro b hb hb0 hb'
  rw [getLsbD_linkedEntry hb, if_neg hb0, if_neg hb']

/-- The tree grows: tables stay where they are, new ones come from the answered requests, and
entries keep their flags, those of new tables being zero. -/
structure Extends (root : BitVec 64) (s t : Paging) : Prop where
  answers : t.answers = s.answers
  requests : s.requests ≤ t.requests
  tables : ∀ path k, path.length ≤ 3 → s.table root path = some k → t.table root path = some k
  added : ∀ path k, path.length ≤ 3 → t.table root path = some k →
    s.table root path = some k ∨
      ∃ n, s.requests ≤ n ∧ n < t.requests ∧ k = pageNumber (s.answers n)
  flags : ∀ path index entry, path.length ≤ 3 → t.entry root path index = some entry →
    SameFlags ((s.entry root path index).getD 0) entry

namespace Extends

variable {root : BitVec 64} {s t u : Paging} {last : Nat}

theorem refl (root : BitVec 64) (s : Paging) : Extends root s s where
  answers := rfl
  requests := le_rfl
  tables _ _ _ h := h
  added _ _ _ h := .inl h
  flags _ _ entry _ h := by
    rw [h]
    exact SameFlags.refl entry

theorem trans (h : Extends root s t) (h' : Extends root t u) : Extends root s u where
  answers := h'.answers.trans h.answers
  requests := h.requests.trans h'.requests
  tables path k hpath hk := h'.tables path k hpath (h.tables path k hpath hk)
  added := by
    intro path k hpath hk
    rcases h'.added path k hpath hk with hk | ⟨n, hn, hlt, rfl⟩
    · rcases h.added path k hpath hk with hk | ⟨n, hn, hlt, rfl⟩
      · exact .inl hk
      · exact .inr ⟨n, hn, hlt.trans_le h'.requests, rfl⟩
    · rw [h.answers]
      exact .inr ⟨n, h.requests.trans hn, hlt, rfl⟩
  flags := by
    intro path index entry hpath hentry
    have hflags := h'.flags path index entry hpath hentry
    cases ht : t.entry root path index with
    | none =>
        -- A table that is new in the second step was not there before the first either.
        have hs : s.entry root path index = none := by
          rw [Paging.entry_eq, Option.map_eq_none_iff] at ht ⊢
          cases hs : s.table root path with
          | none => rfl
          | some k => exact absurd (ht.symm.trans (h.tables path k hpath hs)) (by simp)
        rw [ht] at hflags
        rwa [hs]
    | some middle =>
        rw [ht] at hflags
        exact (h.flags path index middle hpath ht).trans hflags

theorem freshAnswers (h : Extends root s t) (hfresh : s.FreshAnswers root last) :
    t.FreshAnswers root last where
  frame n hn hlt := by
    rw [h.answers]
    exact hfresh.frame n (h.requests.trans hn) hlt
  unlinked := by
    intro n hn hlt path hpath hk
    rw [h.answers] at hk
    rcases h.added path _ hpath hk with hk | ⟨m, hm, hmt, hpage⟩
    · exact hfresh.unlinked n (h.requests.trans hn) hlt path hpath hk
    · have hmn : m < n := hmt.trans_le hn
      refine hfresh.distinct m n hm hmn hlt ?_
      exact ((hfresh.frame n (hm.trans hmn.le) hlt).pageNumber_injective
        (hfresh.frame m hm (hmn.trans hlt)) hpage).symm
  distinct m n hm hmn hlt := by
    rw [h.answers]
    exact hfresh.distinct m n (h.requests.trans hm) hmn hlt

theorem wellFormedTree (h : Extends root s t) (hs : s.WellFormedTree root) (ht : t.Tree root) :
    t.WellFormedTree root := by
  refine ⟨ht, ?_⟩
  intro path index entry hpath hentry
  have hflags := h.flags path index entry hpath.le hentry
    PageDirectoryFlagBit.largerpages.toNat (by decide) (by decide) (by decide)
  rw [hflags]
  cases hold : s.entry root path index with
  | none => rfl
  | some old => exact hs.2 path index old hpath hold

end Extends

/-! ## One level down -/

theorem pagingNextTable_requests (table : BitVec 64) (index : BitVec 9) (s : Paging) :
    s.requests ≤ (pagingNextTable table index s).2.requests ∧
      (pagingNextTable table index s).2.requests ≤ s.requests + 1 := by
  rw [pagingNextTable]
  split
  · exact ⟨Nat.le_succ s.requests, le_rfl⟩
  · exact ⟨le_rfl, Nat.le_succ s.requests⟩

/-- The table that was requested is linked under an entry that is not present. -/
structure TableLinked (root table next : BitVec 64) (path : List (BitVec 9)) (index : BitVec 9)
    (s t : Paging) : Prop where
  tree : s.Tree root
  holder : s.table root path = some (pageNumber table)
  level : path.length < 3
  absent : getBit (s.read table index) PageDirectoryFlagBit.present.toNat = false
  request : next = s.answers s.requests
  result : t = (({ s with requests := s.requests + 1 } : Paging).zero next).write table index
    (pagingSetEntryAddress (s.read table index) (next >>> 12) |||
      shiftedOne PageDirectoryFlagBit.present.toNat)
  fresh : s.FreshAnswers root t.requests

namespace TableLinked

variable {s t : Paging} {root table next : BitVec 64} {path : List (BitVec 9)} {index : BitVec 9}

private theorem requests_lt (h : TableLinked root table next path index s t) :
    s.requests < t.requests := by
  rw [h.result]
  exact Nat.lt_succ_self s.requests

private theorem unused (h : TableLinked root table next path index s t) :
    entryTarget (s.memory (pageNumber table) index) = none := entryTarget_absent h.absent

private theorem unlinked (h : TableLinked root table next path index s t) :
    Unreached entryTarget s.memory (pageNumber root) 3 (pageNumber next) :=
  h.request ▸ h.fresh.unlinked s.requests le_rfl h.requests_lt

private theorem target (h : TableLinked root table next path index s t) :
    entryTarget (pagingSetEntryAddress (s.read table index) (next >>> 12) |||
      shiftedOne PageDirectoryFlagBit.present.toNat) = some (pageNumber next) := by
  apply entryTarget_linkedEntry
  rw [h.request]
  exact h.fresh.frame s.requests le_rfl h.requests_lt

private theorem tree_after (h : TableLinked root table next path index s t) : t.Tree root := by
  rw [h.result]
  exact h.tree.link h.holder h.level h.unused h.unlinked entryTarget_zero h.target

private theorem table_eq (h : TableLinked root table next path index s t) {q : List (BitVec 9)}
    (hq : q.length ≤ 4) : t.table root q =
      if q = path ++ [index] then some (pageNumber next) else s.table root q := by
  rw [h.result]
  exact h.tree.descend_link h.holder h.level h.unused h.unlinked entryTarget_zero h.target hq

private theorem entry_eq (h : TableLinked root table next path index s t) {q : List (BitVec 9)}
    (j : BitVec 9) (hq : q.length ≤ 3) : t.entry root q j =
      if q = path ∧ j = index then some (pagingSetEntryAddress (s.read table index) (next >>> 12) |||
        shiftedOne PageDirectoryFlagBit.present.toNat) else
      if q = path ++ [index] then some 0 else s.entry root q j := by
  rw [h.result]
  exact h.tree.lookup_link h.holder h.level h.unused h.unlinked entryTarget_zero h.target hq

private theorem table_none (h : TableLinked root table next path index s t) :
    s.table root (path ++ [index]) = none := by
  rw [Paging.table_concat, h.holder]
  exact h.unused

private theorem sameFlags (h : TableLinked root table next path index s t) {q : List (BitVec 9)}
    {j : BitVec 9} {entry : BitVec 64} (hq : q.length ≤ 3) (hentry : t.entry root q j = some entry) :
    SameFlags ((s.entry root q j).getD 0) entry := by
  rw [h.entry_eq j hq] at hentry
  split at hentry
  · rename_i hhere
    have hold : s.entry root q j = some (s.read table index) := by
      rw [hhere.1, hhere.2, Paging.entry_eq, h.holder]
      rfl
    rw [hold, ← Option.some.inj hentry]
    exact sameFlags_linkedEntry _ _
  · split at hentry
    · rename_i hnew
      have hold : s.entry root q j = none := by
        rw [hnew, Paging.entry_eq, h.table_none]
        rfl
      rw [hold, ← Option.some.inj hentry]
      exact SameFlags.refl 0
    · rw [hentry]
      exact SameFlags.refl entry

private theorem extended (h : TableLinked root table next path index s t) : Extends root s t where
  answers := by
    rw [h.result]
    rfl
  requests := h.requests_lt.le
  tables q k hq hk := by
    rw [h.table_eq (by omega), if_neg, hk]
    rintro rfl
    rw [h.table_none] at hk
    exact absurd hk.symm (Option.some_ne_none k)
  added q k hq hk := by
    rw [h.table_eq (by omega)] at hk
    split at hk
    · exact .inr ⟨s.requests, le_rfl, h.requests_lt, by rw [← h.request, Option.some.inj hk]⟩
    · exact .inl hk
  flags _ _ _ hq hentry := h.sameFlags hq hentry

private theorem table_leaf (h : TableLinked root table next path index s t) {q : List (BitVec 9)}
    (hq : q.length = 4) : t.table root q = s.table root q := by
  have hlevel := h.level
  rw [h.table_eq hq.le, if_neg]
  rintro rfl
  rw [List.length_append, List.length_singleton] at hq
  omega

end TableLinked

theorem pagingNextTable_spec {s t : Paging} {root table next : BitVec 64}
    {path : List (BitVec 9)} {index : BitVec 9} (htree : s.Tree root)
    (htable : s.table root path = some (pageNumber table)) (hpath : path.length < 3)
    (h : pagingNextTable table index s = (next, t)) (hfresh : s.FreshAnswers root t.requests) :
    t.Tree root ∧ Extends root s t ∧ t.table root (path ++ [index]) = some (pageNumber next) ∧
      ∀ q, q.length = 4 → t.table root q = s.table root q := by
  rw [pagingNextTable] at h
  split at h
  · rename_i habsent
    obtain ⟨hnext, ht⟩ := Prod.mk.inj h
    have hlinked : TableLinked root table next path index s t :=
      ⟨htree, htable, hpath, habsent, hnext.symm, by rw [← ht, ← hnext], hfresh⟩
    refine ⟨hlinked.tree_after, hlinked.extended, ?_, fun q hq => hlinked.table_leaf hq⟩
    rw [hlinked.table_eq (by rw [List.length_append, List.length_singleton]; omega), if_pos rfl]
  · rename_i hpresent
    obtain ⟨rfl, rfl⟩ := Prod.mk.inj h
    refine ⟨htree, Extends.refl root s, ?_, fun q _ => rfl⟩
    rw [Paging.table_concat, htable]
    exact entryTarget_present hpresent

/-! ## The whole call -/

/-- What mapping the page of `virtualAddress` does to the tree. -/
structure Mapped (root virtualAddress physicalAddress : BitVec 64) (s t : Paging) : Prop
    extends Extends root s t where
  tree : t.Tree root
  translate : ∀ address, translate t.memory root address =
    if walkIndexes address = walkIndexes virtualAddress then some (pageNumber physicalAddress)
    else translate s.memory root address

private theorem writeLeaf_spec {s : Paging} {root table virtualAddress w : BitVec 64}
    {target : BitVec 52} {path : List (BitVec 9)} {index : BitVec 9} (htree : s.Tree root)
    (htable : s.table root path = some (pageNumber table)) (hpath : path.length = 3)
    (hwalk : walkIndexes virtualAddress = path ++ [index])
    (hflags : SameFlags (s.read table index) w) (htarget : entryTarget w = some target) :
    Extends root s (s.write table index w) ∧ (s.write table index w).Tree root ∧
      ∀ address, translate (s.write table index w).memory root address =
        if walkIndexes address = walkIndexes virtualAddress then some target
        else translate s.memory root address := by
  have hdescend : ∀ q, q.length ≤ 4 → (s.write table index w).table root q =
      if q = path ++ [index] then entryTarget w else s.table root q :=
    fun q hq => htree.descend_writeEntry_last htable hpath hq
  have hsame : ∀ q, q.length ≤ 3 → (s.write table index w).table root q = s.table root q := by
    intro q hq
    rw [hdescend q (by omega), if_neg]
    rintro rfl
    rw [List.length_append, List.length_singleton] at hq
    omega
  refine ⟨⟨rfl, le_rfl, ?_, ?_, ?_⟩, htree.writeEntry_last htable hpath, ?_⟩
  · intro q k hq hk
    rw [hsame q hq, hk]
  · intro q k hq hk
    exact .inl ((hsame q hq).symm.trans hk)
  · intro q j entry hq hentry
    have hentry' := (htree.lookup_writeEntry htable hpath.le (hsame q hq) hq).symm.trans hentry
    split at hentry'
    · rename_i hhere
      have hold : s.entry root q j = some (s.read table index) := by
        rw [hhere.1, hhere.2, Paging.entry_eq, htable]
        rfl
      rw [hold, ← Option.some.inj hentry']
      exact hflags
    · rw [Paging.entry, hentry']
      exact SameFlags.refl entry
  · intro address
    rw [hwalk, ← htarget]
    exact hdescend (walkIndexes address) (by simp [walkIndexes])

/-- The whole call, for an arbitrary physical address. -/
theorem pagingMapPage_linked {s : Paging} {root virtualAddress physicalAddress : BitVec 64}
    (htree : s.Tree root)
    (hfresh : s.FreshAnswers root (pagingMapPage root virtualAddress physicalAddress s).requests) :
    Extends root s (pagingMapPage root virtualAddress physicalAddress s) ∧
      (pagingMapPage root virtualAddress physicalAddress s).Tree root ∧
      ∀ address, translate (pagingMapPage root virtualAddress physicalAddress s).memory root address =
        if walkIndexes address = walkIndexes virtualAddress then some (framePage physicalAddress)
        else translate s.memory root address := by
  rw [pagingMapPage] at hfresh ⊢
  have hwalk := walkIndexes_eq virtualAddress
  generalize pagingGetIndexes virtualAddress = indexes at hfresh hwalk ⊢
  obtain ⟨i₄, i₃, i₂, i₁⟩ := indexes
  dsimp only at hfresh hwalk ⊢
  revert hfresh
  cases h₃ : pagingNextTable root i₄ s with
  | mk pagetableL3 s₃ =>
  cases h₂ : pagingNextTable pagetableL3 i₃ s₃ with
  | mk pagetableL2 s₂ =>
  cases h₁ : pagingNextTable pagetableL2 i₂ s₂ with
  | mk pagetableL1 s₁ =>
  intro hfresh
  have hle₂ : s₃.requests ≤ s₂.requests := by
    simpa [h₂] using (pagingNextTable_requests pagetableL3 i₃ s₃).1
  have hle₁ : s₂.requests ≤ s₁.requests := by
    simpa [h₁] using (pagingNextTable_requests pagetableL2 i₂ s₂).1
  obtain ⟨tree₃, ext₃, table₃, same₃⟩ := pagingNextTable_spec htree
    (show s.table root [] = some (pageNumber root) from rfl) (by decide) h₃
    (hfresh.mono (hle₂.trans hle₁))
  have hfresh₃ := ext₃.freshAnswers hfresh
  obtain ⟨tree₂, ext₂, table₂, same₂⟩ := pagingNextTable_spec tree₃ table₃ (by simp) h₂
    (hfresh₃.mono hle₁)
  obtain ⟨tree₁, ext₁, table₁, same₁⟩ := pagingNextTable_spec tree₂ table₂ (by simp) h₁
    (ext₂.freshAnswers hfresh₃)
  obtain ⟨ext₀, tree₀, hleaf⟩ := writeLeaf_spec tree₁ table₁ rfl hwalk
    (sameFlags_linkedEntry _ _) (entryTarget_linkedEntry_low _ physicalAddress)
  refine ⟨((ext₃.trans ext₂).trans ext₁).trans ext₀, tree₀, ?_⟩
  intro address
  rw [hleaf]
  congr 1
  have hlen : (walkIndexes address).length = 4 := rfl
  exact (same₁ _ hlen).trans ((same₂ _ hlen).trans (same₃ _ hlen))

private theorem pagingMapPage_mapped {s : Paging} {root virtualAddress physicalAddress : BitVec 64}
    (htree : s.Tree root) (hframe : IsFrameAddress physicalAddress)
    (hfresh : s.FreshAnswers root (pagingMapPage root virtualAddress physicalAddress s).requests) :
    Mapped root virtualAddress physicalAddress s
      (pagingMapPage root virtualAddress physicalAddress s) := by
  obtain ⟨hextends, htree', htranslate⟩ := pagingMapPage_linked htree hfresh
  rw [framePage, hframe.pageNumber_eq] at htranslate
  exact ⟨hextends, htree', htranslate⟩

/-- Mapping a page: it translates to the frame, every other page translates as before, and the
tree is well formed again. -/
theorem paging_map_page_exact {s : Paging} {root virtualAddress physicalAddress : BitVec 64}
    (htree : s.WellFormedTree root) (hframe : IsFrameAddress physicalAddress)
    (hfresh : s.FreshAnswers root (pagingMapPage root virtualAddress physicalAddress s).requests) :
    translate (pagingMapPage root virtualAddress physicalAddress s).memory root virtualAddress =
        some (pageNumber physicalAddress) ∧
      (∀ address, address.extractLsb' 12 36 ≠ virtualAddress.extractLsb' 12 36 →
        translate (pagingMapPage root virtualAddress physicalAddress s).memory root address =
          translate s.memory root address) ∧
      (pagingMapPage root virtualAddress physicalAddress s).WellFormedTree root := by
  have hmapped := pagingMapPage_mapped htree.1 hframe hfresh
  refine ⟨?_, ?_, hmapped.wellFormedTree htree hmapped.tree⟩
  · rw [hmapped.translate, if_pos rfl]
  · intro address hne
    rw [hmapped.translate, if_neg (fun h => hne (walkIndexes_eq_iff.mp h))]

theorem table_of_emptyRoot {s : Paging} {root : BitVec 64}
    (hempty : ∀ i, entryTarget (s.memory (pageNumber root) i) = none)
    {path : List (BitVec 9)} {k : BitVec 52} (h : s.table root path = some k) :
    path = [] ∧ k = pageNumber root := by
  cases path with
  | nil => exact ⟨rfl, (Option.some.inj h).symm⟩
  | cons i path =>
      rw [Paging.table, descend, hempty i] at h
      exact absurd h (by simp)

/-- The requests made between two states were answered with frames, all different. -/
structure Paging.Supplied (s t : Paging) : Prop where
  frame : ∀ n, s.requests ≤ n → n < t.requests → IsFrameAddress (s.answers n) ∧ s.answers n ≠ 0
  distinct : ∀ m n, s.requests ≤ m → m < n → n < t.requests → s.answers m ≠ s.answers n

theorem Paging.Supplied.freshAnswers_root {s t u : Paging} (h : s.Supplied t)
    (hanswers : u.answers = s.answers) (hrequests : u.requests = s.requests + 1)
    (hempty : ∀ i, entryTarget (u.memory (pageNumber (s.answers s.requests)) i) = none) :
    u.FreshAnswers (s.answers s.requests) t.requests where
  frame n hn hlt := by
    rw [hanswers]
    exact (h.frame n (by omega) hlt).1
  unlinked := by
    intro n hn hlt path _ hk
    have hroot := (table_of_emptyRoot hempty hk).2
    rw [hanswers] at hroot
    apply h.distinct s.requests n le_rfl (by omega) hlt
    exact ((h.frame n (by omega) hlt).1.pageNumber_injective
      (h.frame s.requests le_rfl (by omega)).1 hroot).symm
  distinct m n hm hmn hlt := by
    rw [hanswers]
    exact h.distinct m n (by omega) hmn hlt

theorem supplied_of_consecutive {s t : Paging}
    (hanswers : s.answers = fun n => BitVec.ofNat 64 ((n + 2) * 4096))
    (h : t.requests ≤ 2 ^ 39) : s.Supplied t := by
  have hanswer : ∀ n < t.requests, (s.answers n).toNat = (n + 2) * 4096 := by
    intro n hn
    rw [hanswers, BitVec.toNat_ofNat]
    omega
  refine ⟨?_, ?_⟩
  · intro n _ hn
    have hvalue := hanswer n hn
    refine ⟨⟨by omega, by omega⟩, ?_⟩
    intro hzero
    rw [hzero] at hvalue
    simp at hvalue
  · intro m n _ hmn hn heq
    have hm := hanswer m (by omega)
    rw [heq, hanswer n hn] at hm
    omega

/-- Zeroed memory, with the frames from the third on to hand out. -/
def zeroedPaging : Paging where
  memory _ _ := 0
  answers n := BitVec.ofNat 64 ((n + 2) * 4096)
  requests := 0

theorem zeroedPaging_table {root : BitVec 64} {path : List (BitVec 9)} {k : BitVec 52}
    (h : zeroedPaging.table root path = some k) : path = [] ∧ k = pageNumber root :=
  table_of_emptyRoot (fun _ => entryTarget_zero) h

theorem zeroedPaging_wellFormedTree (root : BitVec 64) : zeroedPaging.WellFormedTree root := by
  refine ⟨?_, ?_⟩
  · intro p q k _ _ hp hq
    rw [(zeroedPaging_table hp).1, (zeroedPaging_table hq).1]
  · intro path index entry _ hentry
    rw [Paging.entry_eq, Option.map_eq_some_iff] at hentry
    obtain ⟨k, -, rfl⟩ := hentry
    simp [zeroedPaging]

theorem zeroedPaging_freshAnswers_of_le {last : Nat} (h : last ≤ 2 ^ 39) :
    zeroedPaging.FreshAnswers 0x1000 last := by
  have hanswer : ∀ n < last, (zeroedPaging.answers n).toNat = (n + 2) * 4096 := by
    intro n hn
    rw [zeroedPaging, BitVec.toNat_ofNat]
    omega
  refine ⟨?_, ?_, ?_⟩
  · intro n _ hn
    rw [IsFrameAddress, hanswer n hn]
    omega
  · intro n _ hn path _ hk
    have hpage := congrArg BitVec.toNat (zeroedPaging_table hk).2
    rw [pageNumber_toNat, pageNumber_toNat, hanswer n hn,
      show (0x1000 : BitVec 64).toNat = 4096 from rfl] at hpage
    omega
  · intro m n _ hmn hn heq
    have hm := hanswer m (by omega)
    rw [heq, hanswer n hn] at hm
    omega

theorem zeroedPaging_freshAnswers_three : zeroedPaging.FreshAnswers 0x1000 3 :=
  zeroedPaging_freshAnswers_of_le (by decide)

theorem zeroedPaging_freshAnswers : zeroedPaging.FreshAnswers 0x1000
    (pagingMapPage 0x1000 0x400000 0x9000 zeroedPaging).requests := by
  have hrequests : (pagingMapPage 0x1000 0x400000 0x9000 zeroedPaging).requests = 3 := by decide
  rw [hrequests]
  exact zeroedPaging_freshAnswers_three

/-- A first page, for which all three tables are created. -/
theorem paging_map_page_exact_zeroed :
    zeroedPaging.FreshAnswers 0x1000 (pagingMapPage 0x1000 0x400000 0x9000 zeroedPaging).requests ∧
      translate (pagingMapPage 0x1000 0x400000 0x9000 zeroedPaging).memory 0x1000 0x400000 =
        some 9 :=
  ⟨zeroedPaging_freshAnswers, (paging_map_page_exact (zeroedPaging_wellFormedTree 0x1000)
    (by decide) zeroedPaging_freshAnswers).1⟩

end VisualOS.Kernel
