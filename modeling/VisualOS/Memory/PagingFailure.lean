import VisualOS.Memory.PagingMap

/-!
# Mapping without memory

`paging_map_page` does not look at what `pageframe_request` answers.  `NULL` is linked as a table
like any other answer, and the rest of the call works on frame 0.
-/

namespace VisualOS.Kernel

open Framework

/-- No table is linked from two places, and none is at frame 0. -/
structure Paging.SafeTree (s : Paging) (root : BitVec 64) : Prop where
  tree : s.Tree root
  nonzero : Unreached entryTarget s.memory (pageNumber root) 3 0

/-- The requests up to the given number are answered with fresh frames or with `NULL`. -/
structure Paging.FreshOrNull (s : Paging) (root : BitVec 64) (last : Nat) : Prop where
  frame : ∀ n, s.requests ≤ n → n < last → IsFrameAddress (s.answers n)
  unlinked : ∀ n, s.requests ≤ n → n < last → s.answers n ≠ 0 →
    Unreached entryTarget s.memory (pageNumber root) 3 (pageNumber (s.answers n))
  distinct : ∀ m n, s.requests ≤ m → m < n → n < last → s.answers m ≠ 0 →
    s.answers m ≠ s.answers n

/-- What a mapping that fails is to leave: all other translations, and a tree without frame 0. -/
def FailsSafely (root virtualAddress physicalAddress : BitVec 64) (s : Paging) : Prop :=
  (∀ address, address.extractLsb' 12 36 ≠ virtualAddress.extractLsb' 12 36 →
    translate (pagingMapPage root virtualAddress physicalAddress s).memory root address =
      translate s.memory root address) ∧
  (pagingMapPage root virtualAddress physicalAddress s).SafeTree root

variable {s t u : Paging} {root table next : BitVec 64} {path : List (BitVec 9)}
  {index : BitVec 9} {last : Nat}

private theorem pageNumber_eq_zero {address : BitVec 64} (h : IsFrameAddress address) :
    pageNumber address = 0 ↔ address = 0 := by
  constructor
  · intro hzero
    exact h.pageNumber_injective (by decide) hzero
  · rintro rfl
    rfl

namespace Paging.FreshOrNull

private theorem mono {last' : Nat} (h : s.FreshOrNull root last) (hle : last' ≤ last) :
    s.FreshOrNull root last' where
  frame n hn hlt := h.frame n hn (hlt.trans_le hle)
  unlinked n hn hlt := h.unlinked n hn (hlt.trans_le hle)
  distinct m n hm hmn hlt := h.distinct m n hm hmn (hlt.trans_le hle)

private theorem freshAnswers (h : s.FreshOrNull root last) (hsafe : s.SafeTree root)
    (hlast : last ≤ s.requests + 1) : s.FreshAnswers root last where
  frame := h.frame
  unlinked n hn hlt := by
    by_cases hzero : s.answers n = 0
    · rw [hzero]
      exact hsafe.nonzero
    · exact h.unlinked n hn hlt hzero
  distinct m n hm hmn hlt := by omega

private theorem transfer (h : s.FreshOrNull root last) (hextends : Extends root s t) :
    t.FreshOrNull root last where
  frame n hn hlt := by
    rw [hextends.answers]
    exact h.frame n (hextends.requests.trans hn) hlt
  unlinked := by
    intro n hn hlt hne q hq hk
    rw [hextends.answers] at hne hk
    rcases hextends.added q _ hq hk with hk | ⟨m, hm, hmt, hpage⟩
    · exact h.unlinked n (hextends.requests.trans hn) hlt hne q hq hk
    · have hmn : m < n := hmt.trans_le hn
      have heq := (h.frame n (hm.trans hmn.le) hlt).pageNumber_injective
        (h.frame m hm (hmn.trans hlt)) hpage
      exact h.distinct m n hm hmn hlt (heq ▸ hne) heq.symm
  distinct m n hm hmn hlt hne := by
    rw [hextends.answers] at hne ⊢
    exact h.distinct m n (hextends.requests.trans hm) hmn hlt hne

end Paging.FreshOrNull

/-! ## The levels as one loop -/

/-- The three blocks of `paging_map_page` one after the other. -/
def pagingNextTables : List (BitVec 9) → BitVec 64 → Paging → BitVec 64 × Paging
  | [], table, s => (table, s)
  | index :: rest, table, s =>
      let (next, s) := pagingNextTable table index s
      pagingNextTables rest next s

private theorem pagingMapPage_eq (root virtualAddress physicalAddress : BitVec 64) (s : Paging) :
    ∃ path index w, path.length = 3 ∧
      pagingMapPage root virtualAddress physicalAddress s =
        (pagingNextTables path root s).2.write (pagingNextTables path root s).1 index w :=
  ⟨[(pagingGetIndexes virtualAddress).L4_i, (pagingGetIndexes virtualAddress).L3_i,
    (pagingGetIndexes virtualAddress).L2_i], _, _, rfl, rfl⟩

private theorem pagingNextTables_requests (path : List (BitVec 9)) (table : BitVec 64)
    (s : Paging) : s.requests ≤ (pagingNextTables path table s).2.requests := by
  induction path generalizing table s with
  | nil => exact le_rfl
  | cons index path ih =>
      exact (pagingNextTable_requests table index s).1.trans (ih _ _)

/-! ## After `NULL` -/

/-- Frame 0 and what was handed out since `s`. -/
def Detached (s t : Paging) (k : BitVec 52) : Prop :=
  k = 0 ∨ ∃ n, s.requests ≤ n ∧ n < t.requests ∧ k = pageNumber (s.answers n)

/-- The call goes on in detached pages: they link only each other, and nothing else changes. -/
structure Adrift (s t : Paging) (table : BitVec 64) : Prop where
  answers : t.answers = s.answers
  requests : s.requests ≤ t.requests
  table : Detached s t (pageNumber table)
  closed : ∀ k j k', Detached s t k → entryTarget (t.memory k j) = some k' → Detached s t k'
  outside : ∀ k, ¬ Detached s t k → t.memory k = s.memory k

private theorem Adrift.nextTable (h : Adrift s t table)
    (hframe : t.requests < (pagingNextTable table index t).2.requests →
      IsFrameAddress (s.answers t.requests)) :
    Adrift s (pagingNextTable table index t).2 (pagingNextTable table index t).1 := by
  rw [pagingNextTable] at hframe ⊢
  dsimp only [Paging.request] at hframe ⊢
  split
  · rename_i habsent
    rw [if_pos habsent] at hframe
    have hframe := hframe (Nat.lt_succ_self t.requests)
    rw [h.answers]
    generalize hu : Paging.write _ table index _ = u
    dsimp only
    have hrequests : u.requests = t.requests + 1 := by rw [← hu]; rfl
    have hnext : Detached s u (pageNumber (s.answers t.requests)) :=
      .inr ⟨t.requests, h.requests, by omega, rfl⟩
    have hold (k : BitVec 52) (hk : Detached s t k) : Detached s u k := by
      rcases hk with rfl | ⟨n, hn, hlt, rfl⟩
      · exact .inl rfl
      · exact .inr ⟨n, hn, by omega, rfl⟩
    have hnew (k : BitVec 52) (hk : Detached s u k)
        (hne : k ≠ pageNumber (s.answers t.requests)) : Detached s t k := by
      rcases hk with rfl | ⟨n, hn, hlt, rfl⟩
      · exact .inl rfl
      · refine .inr ⟨n, hn, Nat.lt_of_le_of_ne (by omega) ?_, rfl⟩
        rintro rfl
        exact hne rfl
    refine ⟨by rw [← hu]; rfl, h.requests.trans (by omega), hnext, ?_, ?_⟩
    · intro k j k' hk htarget
      rw [← hu] at htarget
      dsimp only [Paging.write, Paging.zero] at htarget
      by_cases hhere : k = pageNumber table ∧ j = index
      · rw [hhere.1, hhere.2, writeEntry_same, entryTarget_linkedEntry _ hframe] at htarget
        exact (Option.some.inj htarget) ▸ hnext
      · rw [writeEntry_other hhere] at htarget
        by_cases hcleared : k = pageNumber (s.answers t.requests)
        · rw [hcleared, clearTable_same, entryTarget_zero] at htarget
          exact absurd htarget (by simp)
        · rw [clearTable_other hcleared] at htarget
          exact hold k' (h.closed k j k' (hnew k hk hcleared) htarget)
    · intro k hk
      have htable : k ≠ pageNumber table := fun heq => hk (heq ▸ hold _ h.table)
      have hcleared : k ≠ pageNumber (s.answers t.requests) := fun heq => hk (heq ▸ hnext)
      rw [← h.outside k fun hkt => hk (hold k hkt), ← hu]
      funext j
      dsimp only [Paging.write, Paging.zero]
      rw [writeEntry_other fun hhere => htable hhere.1, clearTable_other hcleared]
  · rename_i hpresent
    exact ⟨h.answers, h.requests, h.closed _ _ _ h.table (entryTarget_present hpresent), h.closed,
      h.outside⟩

private theorem Adrift.nextTables (h : Adrift s t table) (path : List (BitVec 9))
    (hframe : ∀ n, s.requests ≤ n → n < (pagingNextTables path table t).2.requests →
      IsFrameAddress (s.answers n)) :
    Adrift s (pagingNextTables path table t).2 (pagingNextTables path table t).1 := by
  induction path generalizing t table with
  | nil => exact h
  | cons index path ih =>
      rw [pagingNextTables] at hframe ⊢
      dsimp only at hframe ⊢
      apply ih _ hframe
      apply h.nextTable
      intro hlt
      have hrest := pagingNextTables_requests path (pagingNextTable table index t).1
        (pagingNextTable table index t).2
      exact hframe t.requests h.requests (hlt.trans_le hrest)

private theorem Adrift.keeps_link (h : Adrift s t table) (htree : s.Tree root)
    (hpath : path.length ≤ 3) (hlink : s.table root path = some 0)
    (hfresh : s.FreshOrNull root t.requests) (index : BitVec 9) (w : BitVec 64) :
    (t.write table index w).table root path = some 0 := by
  rw [← hlink]
  apply descend_congr
  intro q k hq hne hk
  have hlength := hq.length_le.trans hpath
  have hnotzero : k ≠ 0 := by
    rintro rfl
    exact hne (htree q path 0 hlength hpath hk hlink)
  have hout : ¬ Detached s t k := by
    rintro (rfl | ⟨n, hn, hlt, rfl⟩)
    · exact hnotzero rfl
    · by_cases hnull : s.answers n = 0
      · exact hnotzero (by rw [hnull]; rfl)
      · exact hfresh.unlinked n hn hlt hnull q hlength hk
  rw [← h.outside k hout]
  funext j
  exact writeEntry_other fun hhere => hout (hhere.1 ▸ h.table)

/-! ## The whole call -/

private theorem Paging.SafeTree.nextTable (hsafe : s.SafeTree root) (hextends : Extends root s t)
    (htree : t.Tree root) (hframe : s.FreshOrNull root t.requests)
    (hnonnull : ∀ n, s.requests ≤ n → n < t.requests → s.answers n ≠ 0) : t.SafeTree root := by
  refine ⟨htree, ?_⟩
  intro q hq hk
  rcases hextends.added q 0 hq hk with hk | ⟨n, hn, hlt, hpage⟩
  · exact hsafe.nonzero q hq hk
  · exact hnonnull n hn hlt ((pageNumber_eq_zero (hframe.frame n hn hlt)).mp hpage.symm)

private theorem pagingNextTable_null (hnull : s.answers s.requests = 0)
    (hrequest : s.requests < (pagingNextTable table index s).2.requests) :
    (pagingNextTable table index s).1 = 0 := by
  rw [pagingNextTable] at hrequest ⊢
  dsimp only [Paging.request] at hrequest ⊢
  split
  · exact hnull
  · rename_i hpresent
    rw [if_neg hpresent] at hrequest
    exact absurd hrequest (lt_irrefl _)

private theorem adrift_of_null (htable : pageNumber table ≠ 0) (hnull : s.answers s.requests = 0)
    (hrequest : s.requests < (pagingNextTable table index s).2.requests) :
    Adrift (pagingNextTable table index s).2 (pagingNextTable table index s).2
      (pagingNextTable table index s).1 := by
  rw [pagingNextTable] at hrequest ⊢
  dsimp only [Paging.request] at hrequest ⊢
  split
  · rw [hnull]
    dsimp only
    generalize hu : Paging.write _ table index _ = u
    have honly (k : BitVec 52) (hk : Detached u u k) : k = 0 := by
      rcases hk with rfl | ⟨n, hn, hlt, -⟩
      · rfl
      · omega
    refine ⟨rfl, le_rfl, .inl rfl, ?_, fun _ _ => rfl⟩
    intro k j k' hk htarget
    obtain rfl := honly k hk
    rw [← hu] at htarget
    dsimp only [Paging.write, Paging.zero] at htarget
    rw [writeEntry_other fun hhere => htable hhere.1.symm] at htarget
    rw [show (0 : BitVec 52) = pageNumber 0 from rfl, clearTable_same, entryTarget_zero] at htarget
    exact absurd htarget (by simp)
  · rename_i hpresent
    rw [if_neg hpresent] at hrequest
    exact absurd hrequest (lt_irrefl _)

private theorem pagingNextTables_links_null (rest : List (BitVec 9)) (hsafe : s.SafeTree root)
    (htable : s.table root path = some (pageNumber table))
    (hlength : path.length + rest.length ≤ 3)
    (hfresh : s.FreshOrNull root (pagingNextTables rest table s).2.requests)
    (hnull : ∃ n, s.requests ≤ n ∧ n < (pagingNextTables rest table s).2.requests ∧
      s.answers n = 0) :
    ∃ q : List (BitVec 9), q.length ≤ 3 ∧ ∀ index w,
      ((pagingNextTables rest table s).2.write (pagingNextTables rest table s).1 index w).table root q =
        some 0 := by
  induction rest generalizing path table s with
  | nil =>
      obtain ⟨n, hn, hlt, -⟩ := hnull
      exact absurd hlt (Nat.not_lt.mpr hn)
  | cons index rest ih =>
      rw [List.length_cons] at hlength
      obtain ⟨hle, hle'⟩ := pagingNextTable_requests table index s
      have hlast := pagingNextTables_requests rest (pagingNextTable table index s).1
        (pagingNextTable table index s).2
      have hpair : pagingNextTable table index s =
        ((pagingNextTable table index s).1, (pagingNextTable table index s).2) := rfl
      obtain ⟨htree, hextends, hnext, -⟩ := pagingNextTable_spec hsafe.tree htable (by omega) hpair
        ((hfresh.mono hlast).freshAnswers hsafe hle')
      have hfresh' := hfresh.transfer hextends
      rw [pagingNextTables]
      by_cases hhere : s.requests < (pagingNextTable table index s).2.requests ∧
          s.answers s.requests = 0
      · have htableNonzero : pageNumber table ≠ 0 := by
          intro hzero
          rw [hzero] at htable
          exact hsafe.nonzero path (by omega) htable
        have hadrift := (adrift_of_null htableNonzero hhere.2 hhere.1).nextTables rest hfresh'.frame
        refine ⟨path ++ [index], by simp; omega, ?_⟩
        apply hadrift.keeps_link htree
        · simp
          omega
        · rw [hnext, pagingNextTable_null hhere.2 hhere.1]
          rfl
        · exact hfresh'
      · have hnonnull : ∀ n, s.requests ≤ n → n < (pagingNextTable table index s).2.requests →
            s.answers n ≠ 0 := by
          intro n hn hlt hzero
          obtain rfl : n = s.requests := by omega
          exact hhere ⟨hlt, hzero⟩
        apply ih (hsafe.nextTable hextends htree (hfresh.mono hlast) hnonnull) hnext
        · simp
          omega
        · exact hfresh'
        · obtain ⟨n, hn, hlt, hzero⟩ := hnull
          refine ⟨n, ?_, hlt, by rw [hextends.answers]; exact hzero⟩
          by_contra hbefore
          exact hnonnull n hn (by omega) hzero

/-- A request without an answer ends in a link to frame 0. -/
theorem pagingMapPage_links_null (root virtualAddress physicalAddress : BitVec 64) (s : Paging)
    (hsafe : s.SafeTree root)
    (hfresh : s.FreshOrNull root (pagingMapPage root virtualAddress physicalAddress s).requests)
    (hnull : ∃ n, s.requests ≤ n ∧
      n < (pagingMapPage root virtualAddress physicalAddress s).requests ∧ s.answers n = 0) :
    ∃ q : List (BitVec 9), q.length ≤ 3 ∧
      (pagingMapPage root virtualAddress physicalAddress s).table root q = some 0 := by
  obtain ⟨rest, index, w, hlength, heq⟩ :=
    pagingMapPage_eq root virtualAddress physicalAddress s
  rw [heq] at hfresh hnull ⊢
  obtain ⟨q, hq, hlink⟩ := pagingNextTables_links_null rest hsafe
    (show s.table root [] = some (pageNumber root) from rfl) (by simp [hlength]) hfresh hnull
  exact ⟨q, hq, hlink index w⟩

theorem not_failsSafely (root virtualAddress physicalAddress : BitVec 64) (s : Paging)
    (hsafe : s.SafeTree root)
    (hfresh : s.FreshOrNull root (pagingMapPage root virtualAddress physicalAddress s).requests)
    (hnull : ∃ n, s.requests ≤ n ∧
      n < (pagingMapPage root virtualAddress physicalAddress s).requests ∧ s.answers n = 0) :
    ¬ FailsSafely root virtualAddress physicalAddress s := by
  rintro ⟨-, hafter⟩
  obtain ⟨q, hq, hlink⟩ :=
    pagingMapPage_links_null root virtualAddress physicalAddress s hsafe hfresh hnull
  exact hafter.nonzero q hq hlink

/-- Zeroed memory, with one frame left to hand out. -/
def lastFramePaging : Paging where
  memory _ _ := 0
  answers n := if n = 0 then 0x2000 else 0
  requests := 0

private theorem lastFramePaging_safeTree : lastFramePaging.SafeTree 0x1000 := by
  have htable {path : List (BitVec 9)} {k : BitVec 52}
      (h : lastFramePaging.table 0x1000 path = some k) : path = [] ∧ k = 1 :=
    table_of_emptyRoot (fun _ => entryTarget_zero) h
  constructor
  · intro p q k _ _ hp hq
    rw [(htable hp).1, (htable hq).1]
  · intro q _ hk
    exact absurd (htable hk).2 (by decide)

/-- The second table is already missing. -/
theorem not_failsSafely_lastFrame :
    lastFramePaging.SafeTree 0x1000 ∧ ¬ FailsSafely 0x1000 0x400000 0x9000 lastFramePaging := by
  have hrequests : (pagingMapPage 0x1000 0x400000 0x9000 lastFramePaging).requests = 3 := by decide
  refine ⟨lastFramePaging_safeTree, not_failsSafely 0x1000 0x400000 0x9000 lastFramePaging
    lastFramePaging_safeTree ?_ ?_⟩
  · rw [hrequests]
    refine ⟨?_, ?_, ?_⟩
    · intro n _ hn
      interval_cases n <;> decide
    · intro n _ hn hne q _ hk
      have hpage := (table_of_emptyRoot (fun _ => entryTarget_zero) hk).2
      interval_cases n
      · exact absurd hpage (by decide)
      · exact hne rfl
      · exact hne rfl
    · intro m n _ hmn hn hne
      interval_cases n <;> interval_cases m <;> first | decide | exact absurd rfl hne
  · rw [hrequests]
    exact ⟨1, by decide, by decide, rfl⟩

/-- No frame at all: the root links frame 0. -/
theorem failsSafely_links_frame_zero :
    ¬ FailsSafely 0x1000 0x400000 0x9000
      { memory := fun _ _ => 0, answers := fun _ => 0, requests := 0 } := by
  rintro ⟨-, hafter⟩
  exact hafter.nonzero [0] (by decide) (by decide)

end VisualOS.Kernel
