import Mathlib.Order.Bounds.Basic
import VisualOS.Symbols.SymbolOrder

/-!
# The search in the symbol map

`symbol_resolve` halves the map around the address, with the bounds as unsigned numbers.  From the
first entry on it finds the entry that encloses the address.  Below the first entry the upper bound
passes zero and the search goes on outside of the map.
-/

namespace VisualOS.Kernel

open SymbolArray

/-- The addresses of the map do not descend. -/
def SortedMap (cells : BitVec 60 → SymbolMap) (num : Nat) : Prop :=
  ∀ i j, i ≤ j → j < num →
    (SymbolArray.entry { cells } (BitVec.ofNat 64 i)).address ≤
      (SymbolArray.entry { cells } (BitVec.ofNat 64 j)).address

/-- The entries that do not lie above the address. -/
def entriesUpTo (cells : BitVec 60 → SymbolMap) (num : Nat) (address : BitVec 64) : Set Nat :=
  { k | k < num ∧ (SymbolArray.entry { cells } (BitVec.ofNat 64 k)).address ≤ address }

variable {cells : BitVec 60 → SymbolMap} {s t : SymbolArray} {address r : BitVec 64}
  {num max low high rounds n : Nat}

/-! ## One round -/

private theorem symbolSearch_round (hcells : s.cells = cells) (hlow : low ≤ high)
    (hhigh : high ≤ max) (hmax : low < max) (hfits : max < 2 ^ 60) :
    symbolSearch (BitVec.ofNat 64 max) address (rounds + 1) (BitVec.ofNat 64 low)
        (BitVec.ofNat 64 high) s =
      let mid := (low + high) / 2
      let value := (SymbolArray.entry { cells } (BitVec.ofNat 64 mid)).address
      let valueNext := (SymbolArray.entry { cells } (BitVec.ofNat 64 (mid + 1))).address
      let s := (s.access (BitVec.ofNat 64 mid)).access (BitVec.ofNat 64 (mid + 1))
      if value ≤ address ∧ address < valueNext then some (BitVec.ofNat 64 mid, s)
      else if address < value then
        symbolSearch (BitVec.ofNat 64 max) address rounds (BitVec.ofNat 64 low)
          (BitVec.ofNat 64 mid - 1) s
      else
        symbolSearch (BitVec.ofNat 64 max) address rounds (BitVec.ofNat 64 (mid + 1))
          (BitVec.ofNat 64 high) s := by
  have hmid : (BitVec.ofNat 64 low + BitVec.ofNat 64 high) / 2 =
      BitVec.ofNat 64 ((low + high) / 2) := by
    apply BitVec.eq_of_toNat_eq
    simp only [BitVec.toNat_udiv, BitVec.toNat_add, BitVec.toNat_ofNat,
      show (2 : BitVec 64).toNat = 2 from rfl]
    omega
  have hguard : BitVec.ofNat 64 low ≤ BitVec.ofNat 64 high ∧
      BitVec.ofNat 64 low ≤ BitVec.ofNat 64 max - 1 := by
    simp only [BitVec.le_def, BitVec.toNat_sub, BitVec.toNat_ofNat,
      show (1 : BitVec 64).toNat = 1 from rfl]
    omega
  rw [symbolSearch, if_pos hguard, hmid]
  dsimp only
  rw [show BitVec.ofNat 64 ((low + high) / 2) + 1 = BitVec.ofNat 64 ((low + high) / 2 + 1) from
      (BitVec.ofNat_add _ 1).symm]
  subst hcells
  rfl

private theorem symbolSearch_last (hmax : 1 ≤ max) (hfits : max < 2 ^ 60) :
    symbolSearch (BitVec.ofNat 64 max) address (rounds + 1) (BitVec.ofNat 64 max)
      (BitVec.ofNat 64 high) s = some (BitVec.ofNat 64 max, s) := by
  have hlast : BitVec.ofNat 64 max - 1 < BitVec.ofNat 64 max := by
    simp only [BitVec.lt_def, BitVec.toNat_sub, BitVec.toNat_ofNat,
      show (1 : BitVec 64).toNat = 1 from rfl]
    omega
  rw [symbolSearch, if_neg (fun h => absurd h.2 (BitVec.not_le.mpr hlast)), if_pos hlast]

/-! ## From the first entry on -/

private theorem SortedMap.isGreatest (h : SortedMap cells num)
    {k : Nat} (hk : k ∈ entriesUpTo cells num address)
    (hnext : k + 1 = num ∨
      address < (SymbolArray.entry { cells } (BitVec.ofNat 64 (k + 1))).address) :
    IsGreatest (entriesUpTo cells num address) k := by
  refine ⟨hk, ?_⟩
  intro i hi
  by_contra hlt
  rcases hnext with hlast | hnext
  · exact absurd hi.1 (by omega)
  · have hle := h (k + 1) i (by omega) hi.1
    exact absurd (BitVec.le_trans hle hi.2) (BitVec.not_le.mpr hnext)

/-- Between the bounds there is always an entry that does not lie above the address, and the one
behind them does. -/
theorem symbolSearch_spec (hsorted : SortedMap cells (max + 1)) (hcells : s.cells = cells)
    (hmax : 1 ≤ max) (hfits : max < 2 ^ 60) (hlow : low ≤ high) (hhigh : high ≤ max)
    (hlowEntry : (SymbolArray.entry { cells } (BitVec.ofNat 64 low)).address ≤ address)
    (hhighEntry : high = max ∨
      address < (SymbolArray.entry { cells } (BitVec.ofNat 64 (high + 1))).address)
    (hrounds : high - low < rounds) (hbelow : s.AccessedBelow (max + 1)) :
    ∃ k t, symbolSearch (BitVec.ofNat 64 max) address rounds (BitVec.ofNat 64 low)
        (BitVec.ofNat 64 high) s = some (BitVec.ofNat 64 k, t) ∧
      t.AccessedBelow (max + 1) ∧ IsGreatest (entriesUpTo cells (max + 1) address) k := by
  induction rounds generalizing low high s with
  | zero => exact absurd hrounds (by omega)
  | succ rounds ih =>
      rcases Nat.lt_or_ge low max with hlt | hge
      · rw [symbolSearch_round hcells hlow hhigh hlt hfits]
        dsimp only
        have hin := (hbelow.access (show (low + high) / 2 < max + 1 by omega)).access
          (show (low + high) / 2 + 1 < max + 1 by omega)
        split
        · rename_i hfound
          refine ⟨_, _, rfl, hin, hsorted.isGreatest ⟨by omega, hfound.1⟩ (.inr hfound.2)⟩
        · split
          · rename_i hgreater
            -- The lower bound is not the middle, since its entry does not lie above the address.
            have hne : low ≠ (low + high) / 2 := by
              intro heq
              rw [← heq] at hgreater
              exact absurd hlowEntry (BitVec.not_le.mpr hgreater)
            obtain ⟨mid, hmid⟩ := Nat.exists_eq_add_of_le' (show 1 ≤ (low + high) / 2 by omega)
            rw [hmid] at hgreater hin ⊢
            rw [ofNat_succ_sub_one]
            apply ih
            · exact hcells
            · omega
            · omega
            · exact hlowEntry
            · exact .inr hgreater
            · omega
            · exact hin
          · rename_i hnot hle
            have hnext : (SymbolArray.entry { cells }
                (BitVec.ofNat 64 ((low + high) / 2 + 1))).address ≤ address :=
              BitVec.not_lt.mp fun h => hnot ⟨BitVec.not_lt.mp hle, h⟩
            -- The middle is not the upper bound, since the entry behind it does not lie above.
            have hne : (low + high) / 2 ≠ high := by
              intro heq
              rw [heq] at hnext
              rcases hhighEntry with hmaxEq | habove
              · omega
              · exact absurd hnext (BitVec.not_le.mpr habove)
            apply ih
            · exact hcells
            · omega
            · exact hhigh
            · exact hnext
            · exact hhighEntry
            · omega
            · exact hin
      · obtain rfl : low = max := by omega
        rw [symbolSearch_last hmax hfits]
        exact ⟨low, s, rfl, hbelow, hsorted.isGreatest ⟨by omega, hlowEntry⟩ (.inl rfl)⟩

theorem symbolResolve_isGreatest (cells : BitVec 60 → SymbolMap) (num : Nat) (address : BitVec 64)
    (htwo : 2 ≤ num) (hfits : num ≤ 2 ^ 60) (hsorted : SortedMap cells num)
    (hfirst : (SymbolArray.entry { cells } 0).address ≤ address) :
    ∃ rounds k t, symbolResolve rounds (BitVec.ofNat 64 num) address { cells } =
        some (BitVec.ofNat 64 k, t) ∧
      (∀ j ∈ t.accessed, j.toNat < num) ∧ IsGreatest (entriesUpTo cells num address) k := by
  obtain ⟨max, rfl⟩ := Nat.exists_eq_add_of_le' (show 1 ≤ num by omega)
  have hnone : (⟨cells, []⟩ : SymbolArray).AccessedBelow (max + 1) :=
    fun j hj => absurd hj List.not_mem_nil
  obtain ⟨k, t, hsearch, hbelow, hk⟩ :=
    symbolSearch_spec hsorted rfl (by omega) (by omega) (Nat.zero_le max) le_rfl hfirst (.inl rfl)
      (Nat.lt_succ_self (max - 0)) hnone
  refine ⟨max + 1, k, t, ?_, hbelow, hk⟩
  rw [symbolResolve, ofNat_succ_sub_one]
  exact hsearch

def threeSymbols (k : BitVec 60) : SymbolMap :=
  if k = 0 then ⟨0x1000, 4⟩ else if k = 1 then ⟨0x1040, 7⟩ else ⟨0x1040, 9⟩

private theorem sortedMap_threeSymbols : SortedMap threeSymbols 3 := by
  intro i j hij hj
  interval_cases j <;> interval_cases i <;> decide

theorem symbolResolve_isGreatest_threeSymbols :
    SortedMap threeSymbols 3 ∧
      ∃ rounds k t, symbolResolve rounds (BitVec.ofNat 64 3) 0x1044 { cells := threeSymbols } =
          some (BitVec.ofNat 64 k, t) ∧
        (∀ j ∈ t.accessed, j.toNat < 3) ∧ IsGreatest (entriesUpTo threeSymbols 3 0x1044) k :=
  ⟨sortedMap_threeSymbols, symbolResolve_isGreatest threeSymbols 3 0x1044 (by decide) (by decide)
    sortedMap_threeSymbols (by decide)⟩

/-! ## Below the first entry -/

private theorem symbolSearch_accessed {max low high : BitVec 64}
    (h : symbolSearch max address rounds low high s = some (r, t)) :
    s.accessed ⊆ t.accessed := by
  induction rounds generalizing low high s with
  | zero => exact absurd h (by simp [symbolSearch])
  | succ rounds ih =>
      have hmore (i j : BitVec 64) : s.accessed ⊆ ((s.access i).access j).accessed :=
        List.Subset.trans (List.subset_cons_self _ _) (List.subset_cons_self _ _)
      rw [symbolSearch] at h
      split at h
      · dsimp only at h
        split at h
        · cases h
          exact hmore _ _
        · split at h
          · exact List.Subset.trans (hmore _ _) (ih h)
          · exact List.Subset.trans (hmore _ _) (ih h)
      · split at h
        · cases h
          exact List.Subset.refl _
        · cases h
          exact List.Subset.refl _

private theorem symbolSearch_enters {max low high : BitVec 64} (hguard : low ≤ high ∧ low ≤ max - 1)
    (h : symbolSearch max address rounds low high s = some (r, t)) :
    (low + high) / 2 ∈ t.accessed ∧ (low + high) / 2 + 1 ∈ t.accessed := by
  have hused (i j : BitVec 64) (hsub : ((s.access i).access j).accessed ⊆ t.accessed) :
      i ∈ t.accessed ∧ j ∈ t.accessed :=
    ⟨hsub (List.mem_cons_of_mem j List.mem_cons_self), hsub List.mem_cons_self⟩
  cases rounds with
  | zero => exact absurd h (by simp [symbolSearch])
  | succ rounds =>
      rw [symbolSearch, if_pos hguard] at h
      dsimp only at h
      apply hused
      split at h
      · cases h
        exact List.Subset.refl _
      · split at h
        · exact symbolSearch_accessed h
        · exact symbolSearch_accessed h

/-- The upper bound goes down to the first entry and below it, where it wraps around. -/
theorem symbolSearch_below (hsorted : SortedMap cells (max + 1)) (hcells : s.cells = cells)
    (hmax : 1 ≤ max) (hfits : max < 2 ^ 60) (hhigh : high ≤ max)
    (hfirst : address < (SymbolArray.entry { cells } 0).address)
    (h : symbolSearch (BitVec.ofNat 64 max) address rounds 0 (BitVec.ofNat 64 high) s =
      some (r, t)) : BitVec.ofNat 64 (2 ^ 63 - 1) ∈ t.accessed := by
  induction rounds generalizing high s with
  | zero => exact absurd h (by simp [symbolSearch])
  | succ rounds ih =>
      have hmid : (0 + high) / 2 ≤ max := by omega
      have hgreater : address <
          (SymbolArray.entry { cells } (BitVec.ofNat 64 ((0 + high) / 2))).address :=
        Nat.lt_of_lt_of_le hfirst (hsorted 0 _ (Nat.zero_le _) (by omega))
      have hround := (symbolSearch_round hcells (Nat.zero_le high) hhigh hmax hfits).symm.trans h
      dsimp only at hround
      rw [if_neg (fun hfound => absurd hfound.1 (BitVec.not_le.mpr hgreater)),
        if_pos hgreater] at hround
      cases hzero : (0 + high) / 2 with
      | zero =>
          rw [hzero] at hround
          exact (symbolSearch_enters ⟨Nat.zero_le _, Nat.zero_le _⟩ hround).1
      | succ mid =>
          rw [hzero, ofNat_succ_sub_one] at hround
          exact ih (s := (s.access _).access _) hcells (by omega) hround

/-- What a search without a result is to do. -/
def FailsCleanly (file : KernelFile) (table : SymbolTableInformation)
    (cells : BitVec 60 → SymbolMap) (address : BitVec 64) (sectionStr : Bool) : Prop :=
  ∃ rounds t, symbolResolve rounds table.symbolMapNum (address - file.kernelOffset) { cells } =
      some (symbolFindFail, t) ∧
    (∀ j ∈ t.accessed, j < table.symbolMapNum) ∧
    symbolLookup rounds file table address sectionStr { cells } = some (none, t)

/-- Whatever the map holds, a search in it below its first entry uses memory that is not in it. -/
theorem symbolResolve_leaves_map {num : BitVec 64} (hfits : num.toNat ≤ 2 ^ 60)
    (hsorted : SortedMap cells num.toNat)
    (hbelow : 0 < num.toNat → address < (SymbolArray.entry { cells } 0).address)
    (h : symbolResolve rounds num address { cells } = some (r, t)) :
    ∃ j ∈ t.accessed, num ≤ j := by
  obtain ⟨n, hn, rfl⟩ : ∃ n ≤ 2 ^ 60, num = BitVec.ofNat 64 n :=
    ⟨num.toNat, hfits, by rw [BitVec.ofNat_toNat, BitVec.setWidth_eq]⟩
  rw [BitVec.toNat_ofNat, Nat.mod_eq_of_lt (by omega)] at hsorted hbelow
  rw [symbolResolve] at h
  rcases Nat.lt_or_ge n 2 with hlt | hge
  · interval_cases n
    · exact ⟨_, (symbolSearch_enters (by decide) h).1, Nat.zero_le _⟩
    · exact ⟨_, (symbolSearch_enters (by decide) h).2, by decide⟩
  · obtain ⟨max, rfl⟩ := Nat.exists_eq_add_of_le' (show 1 ≤ n by omega)
    rw [ofNat_succ_sub_one] at h
    have hused := symbolSearch_below hsorted rfl (by omega) (by omega) le_rfl (hbelow (by omega)) h
    refine ⟨_, hused, ?_⟩
    rw [BitVec.le_def, BitVec.toNat_ofNat, BitVec.toNat_ofNat]
    omega

theorem not_failsCleanly (file : KernelFile) (table : SymbolTableInformation)
    (cells : BitVec 60 → SymbolMap) (address : BitVec 64) (sectionStr : Bool)
    (hfits : table.symbolMapNum.toNat ≤ 2 ^ 60)
    (hsorted : SortedMap cells table.symbolMapNum.toNat)
    (hbelow : 0 < table.symbolMapNum.toNat →
      address - file.kernelOffset < (SymbolArray.entry { cells } 0).address) :
    ¬ FailsCleanly file table cells address sectionStr := by
  rintro ⟨rounds, t, hresolve, hin, -⟩
  obtain ⟨j, hj, hle⟩ := symbolResolve_leaves_map hfits hsorted hbelow hresolve
  exact absurd (hin j hj) (BitVec.not_lt.mpr hle)

/-- A kernel that is loaded where it is linked, and whose file holds nothing of interest. -/
def emptyFile : KernelFile where
  kernelHeader := 0
  kernelOffset := 0
  header := ⟨0, 0, 0, 0, 0⟩
  sectionAt := fun _ => ⟨0, 0, 0, 0, 0, 0⟩
  symbolAt := fun _ => ⟨0, 0, 0⟩

/-- An address below the first of three symbols, and an empty map. -/
theorem not_failsCleanly_below :
    SortedMap threeSymbols 3 ∧
      ¬ FailsCleanly emptyFile { symbolMapNum := 3 } threeSymbols 0x0fff false ∧
      ¬ FailsCleanly emptyFile {} threeSymbols 0x1000 false := by
  have hsorted : SortedMap threeSymbols 0 := fun _ j _ hj => absurd hj (Nat.not_lt_zero j)
  refine ⟨sortedMap_threeSymbols, ?_, ?_⟩
  · exact not_failsCleanly emptyFile { symbolMapNum := 3 } threeSymbols 0x0fff false (by decide)
      sortedMap_threeSymbols fun _ => by decide
  · exact not_failsCleanly emptyFile {} threeSymbols 0x1000 false (by decide) hsorted
      fun h => absurd h (by decide)

/-- A jump to `NULL`, looked up by the handler of the fault. -/
theorem not_failsCleanly_null :
    ¬ FailsCleanly emptyFile { symbolMapNum := 3 } threeSymbols 0 true := by
  rintro ⟨rounds, t, hresolve, hin, -⟩
  obtain ⟨j, hj, hle⟩ :=
    symbolResolve_leaves_map (by decide) (show SortedMap threeSymbols 3 from sortedMap_threeSymbols)
      (fun _ => by decide) hresolve
  exact absurd (hin j hj) (BitVec.not_lt.mpr hle)

end VisualOS.Kernel
