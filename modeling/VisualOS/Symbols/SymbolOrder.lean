import VisualOS.Framework.Insertion
import VisualOS.Symbols.Symbol

/-!
# The order of the symbol map

The loop of `symbol_init` that fills `symbol_map` is a stable insertion by address as long as no
symbol goes in front of the first one.  The loop that makes room has no lower end, so a symbol below
all others reads the memory in front of the array.
-/

namespace VisualOS.Kernel

open Framework

/-- The address that the map is ordered by. -/
def SymbolMap.key (e : SymbolMap) : Nat := e.address.toNat

/-- The pairs for the map, in the order of the table, which starts with index `i`. -/
def symbolPairs (symbols : List Elf64Symbol) (i : Nat) : List SymbolMap :=
  ((symbols.zipIdx i).filter fun p => p.1.stValue ≠ 0).map fun p =>
    ⟨p.1.stValue, BitVec.ofNat 64 p.2⟩

private theorem symbolPairs_cons_zero {symbol : Elf64Symbol} (symbols : List Elf64Symbol) (i : Nat)
    (h : symbol.stValue = 0) : symbolPairs (symbol :: symbols) i = symbolPairs symbols (i + 1) := by
  simp [symbolPairs, List.zipIdx_cons, h]

private theorem symbolPairs_cons {symbol : Elf64Symbol} (symbols : List Elf64Symbol) (i : Nat)
    (h : symbol.stValue ≠ 0) : symbolPairs (symbol :: symbols) i =
      ⟨symbol.stValue, BitVec.ofNat 64 i⟩ :: symbolPairs symbols (i + 1) := by
  rw [symbolPairs, List.zipIdx_cons, List.filter_cons_of_pos (by simpa using h)]
  rfl

private theorem symbolPairs_length_le (symbols : List Elf64Symbol) (i : Nat) :
    (symbolPairs symbols i).length ≤ symbols.length := by
  rw [symbolPairs, List.length_map]
  exact (List.length_filter_le _ _).trans_eq List.length_zipIdx

/-! ## Lists in the array -/

namespace SymbolArray

variable {s : SymbolArray} {k m n : Nat} {l : List SymbolMap} {e : SymbolMap}

@[simp] theorem entry_access (s : SymbolArray) (i j : BitVec 64) :
    (s.access i).entry j = s.entry j := rfl

private theorem setWidth_ofNat_ne (hm : m < 2 ^ 60) (hn : n < 2 ^ 60) (h : m ≠ n) :
    (BitVec.ofNat 64 m).setWidth 60 ≠ (BitVec.ofNat 64 n).setWidth 60 := by
  intro heq
  have := congrArg BitVec.toNat heq
  simp only [BitVec.toNat_setWidth, BitVec.toNat_ofNat] at this
  omega

private theorem entry_store_self (s : SymbolArray) (j : BitVec 64) (e : SymbolMap) :
    (s.store j e).entry j = e := Function.update_self _ _ _

private theorem entry_store_of_ne (s : SymbolArray) (e : SymbolMap) (hm : m < 2 ^ 60)
    (hn : n < 2 ^ 60) (h : m ≠ n) :
    (s.store (BitVec.ofNat 64 n) e).entry (BitVec.ofNat 64 m) = s.entry (BitVec.ofNat 64 m) :=
  Function.update_of_ne (setWidth_ofNat_ne hm hn h) _ _

/-- The list stands in the array from index `k` on. -/
def HoldsAt (s : SymbolArray) : Nat → List SymbolMap → Prop
  | _, [] => True
  | k, e :: l => s.entry (BitVec.ofNat 64 k) = e ∧ s.HoldsAt (k + 1) l

private theorem holdsAt_append (s : SymbolArray) (k : Nat) (l l' : List SymbolMap) :
    s.HoldsAt k (l ++ l') ↔ s.HoldsAt k l ∧ s.HoldsAt (k + l.length) l' := by
  induction l generalizing k with
  | nil => simp [HoldsAt]
  | cons e l ih =>
      rw [List.cons_append, HoldsAt, ih, HoldsAt, and_assoc, List.length_cons]
      rw [show k + 1 + l.length = k + (l.length + 1) by omega]

private theorem HoldsAt.access (h : s.HoldsAt k l) (j : BitVec 64) : (s.access j).HoldsAt k l := by
  induction l generalizing k with
  | nil => trivial
  | cons e l ih => exact ⟨h.1, ih h.2⟩

private theorem HoldsAt.store (h : s.HoldsAt k l) (hn : n < 2 ^ 60) (hl : k + l.length ≤ 2 ^ 60)
    (hout : n < k ∨ k + l.length ≤ n) : (s.store (BitVec.ofNat 64 n) e).HoldsAt k l := by
  induction l generalizing k with
  | nil => trivial
  | cons a l ih =>
      rw [List.length_cons] at hl hout
      constructor
      · rw [entry_store_of_ne s e (by omega) hn (by omega)]
        exact h.1
      · apply ih h.2
        · omega
        · omega

private theorem HoldsAt.toList (h : s.HoldsAt 0 l) : s.toList l.length = l := by
  have hfrom (k : Nat) (hk : s.HoldsAt k l) :
      (List.range' k l.length).map (fun i => s.entry (BitVec.ofNat 64 i)) = l := by
    clear h
    induction l generalizing k with
    | nil => rfl
    | cons e l ih => rw [List.length_cons, List.range'_succ, List.map_cons, hk.1, ih _ hk.2]
  rw [SymbolArray.toList, List.range_eq_range']
  exact hfrom 0 h

/-- Every index that was used is below `n`. -/
def AccessedBelow (s : SymbolArray) (n : Nat) : Prop := ∀ j ∈ s.accessed, j.toNat < n

theorem AccessedBelow.access (h : s.AccessedBelow n) (hm : m < n) :
    (s.access (BitVec.ofNat 64 m)).AccessedBelow n := by
  intro j hj
  rcases List.mem_cons.mp hj with rfl | hj
  · exact (Nat.mod_le m (2 ^ 64)).trans_lt hm
  · exact h j hj

private theorem AccessedBelow.store (h : s.AccessedBelow n) (hm : m < n) :
    (s.store (BitVec.ofNat 64 m) e).AccessedBelow n :=
  h.access hm

end SymbolArray

open SymbolArray

variable {s t : SymbolArray} {e first : SymbolMap} {l front tail pairs : List SymbolMap}
  {symbols : List Elf64Symbol} {value j : BitVec 64} {rounds n : Nat}

/-! ## The loop that makes room -/

theorem ofNat_succ_sub_one (n : Nat) : BitVec.ofNat 64 (n + 1) - 1 = BitVec.ofNat 64 n := by
  rw [BitVec.ofNat_add]
  exact BitVec.add_sub_cancel _ _

private theorem symbolShift_concat (rounds : Nat) (hfront : s.HoldsAt 0 (front ++ [e])) :
    symbolShift value (rounds + 1) (BitVec.ofNat 64 (front ++ [e]).length - 1) s =
      if value < e.address then
        symbolShift value rounds (BitVec.ofNat 64 front.length - 1)
          ((s.access (BitVec.ofNat 64 front.length)).store (BitVec.ofNat 64 (front.length + 1)) e)
      else some (BitVec.ofNat 64 front.length, s.access (BitVec.ofNat 64 front.length)) := by
  have hlast := ((holdsAt_append s 0 front [e]).mp hfront).2.1
  rw [Nat.zero_add] at hlast
  rw [List.length_append, List.length_singleton, ofNat_succ_sub_one, symbolShift, hlast]
  rw [show BitVec.ofNat 64 front.length + 1 = BitVec.ofNat 64 (front.length + 1) from
    (BitVec.ofNat_add _ _).symm]

/-- The array has a hole behind `front`.  The loop moves it to the place of the new symbol, if that
is not in front of everything. -/
theorem symbolShift_spec (hfront : s.HoldsAt 0 front) (htail : s.HoldsAt (front.length + 1) tail)
    (hlen : front.length + tail.length < 2 ^ 60) (hplace : upTo SymbolMap.key front e ≠ [])
    (hrounds : front.length ≤ rounds) (hbelow : s.AccessedBelow n) (hn : front.length < n) :
    ∃ t, symbolShift e.address rounds (BitVec.ofNat 64 front.length - 1) s =
        some (BitVec.ofNat 64 (upTo SymbolMap.key front e).length - 1, t) ∧
      t.HoldsAt 0 (upTo SymbolMap.key front e) ∧
      t.HoldsAt ((upTo SymbolMap.key front e).length + 1) (above SymbolMap.key front e ++ tail) ∧
      t.AccessedBelow n := by
  induction front using List.reverseRecOn generalizing tail s rounds with
  | nil => exact absurd rfl hplace
  | append_singleton front b ih =>
      rw [List.length_append, List.length_singleton] at htail hlen hrounds hn
      obtain ⟨rounds, rfl⟩ := Nat.exists_eq_add_of_le' (show 1 ≤ rounds by omega)
      rw [symbolShift_concat rounds hfront]
      have hsplit := (holdsAt_append s 0 front [b]).mp hfront
      by_cases hlt : e.address < b.address
      · rw [if_pos hlt]
        rw [upTo_concat_of_lt front hlt] at hplace ⊢
        rw [above_concat_of_lt front hlt, List.append_assoc, List.singleton_append]
        apply ih
        · apply (hsplit.1.access _).store (by omega) (by omega)
          omega
        · constructor
          · exact entry_store_self _ _ _
          · apply (htail.access _).store (by omega) (by omega)
            omega
        · rw [List.length_cons]
          omega
        · exact hplace
        · omega
        · exact (hbelow.access (by omega)).store (by omega)
        · omega
      · rw [if_neg hlt]
        have hle : b.key ≤ e.key := not_lt.mp hlt
        rw [upTo_concat_of_le front hle, above_concat_of_le front hle, List.nil_append,
          List.length_append, List.length_singleton, ofNat_succ_sub_one]
        exact ⟨_, rfl, hfront.access _, htail.access _, hbelow.access (by omega)⟩

private theorem symbolShift_mono {r : BitVec 64 × SymbolArray} {rounds' : Nat}
    (hle : rounds ≤ rounds')
    (h : symbolShift value rounds j s = some r) : symbolShift value rounds' j s = some r := by
  induction rounds generalizing j s rounds' with
  | zero => exact absurd h (by simp [symbolShift])
  | succ rounds ih =>
      obtain ⟨rounds', rfl⟩ := Nat.exists_eq_add_of_le' (show 1 ≤ rounds' by omega)
      rw [symbolShift] at h ⊢
      split at h
      · rw [if_pos ‹_›]
        exact ih (by omega) h
      · rw [if_neg ‹_›]
        exact h

private theorem symbolShift_accessed {j' : BitVec 64}
    (h : symbolShift value rounds j s = some (j', t)) :
    j ∈ t.accessed ∧ s.accessed ⊆ t.accessed := by
  induction rounds generalizing j s with
  | zero => exact absurd h (by simp [symbolShift])
  | succ rounds ih =>
      rw [symbolShift] at h
      split at h
      · have hrest := (ih h).2
        simp only [SymbolArray.store, SymbolArray.access] at hrest
        exact ⟨hrest (by simp), fun i hi => hrest (by simp [hi])⟩
      · cases h
        exact ⟨List.mem_cons_self, List.subset_cons_self _ _⟩

/-- Below everything in the array the loop goes on to the memory in front of it. -/
theorem symbolShift_below (hfront : s.HoldsAt 0 front) (hlen : front.length < 2 ^ 60)
    (hlt : ∀ b ∈ front, value < b.address)
    (h : symbolShift value rounds (BitVec.ofNat 64 front.length - 1) s = some (j, t)) :
    -1 ∈ t.accessed := by
  induction front using List.reverseRecOn generalizing s rounds with
  | nil => exact (symbolShift_accessed h).1
  | append_singleton front b ih =>
      rw [List.length_append, List.length_singleton] at hlen
      cases rounds with
      | zero => exact absurd h (by simp [symbolShift])
      | succ rounds =>
          rw [symbolShift_concat rounds hfront, if_pos (hlt b (by simp))] at h
          apply ih _ (by omega) _ h
          · have hrest := ((holdsAt_append s 0 front [b]).mp hfront).1
            apply (hrest.access _).store (by omega) (by omega)
            omega
          · intro a ha
            exact hlt a (by simp [ha])

/-! ## One symbol -/

private theorem symbolInsert_next (hne : l ≠ []) (hlen : l.length < 2 ^ 60) :
    symbolInsert rounds (BitVec.ofNat 64 l.length) e s = do
      let (j, s) ← symbolShift e.address rounds (BitVec.ofNat 64 l.length - 1) s
      return s.store (j + 1) e := by
  have hpos : 1 ≤ BitVec.ofNat 64 l.length := by
    rw [BitVec.le_def, BitVec.toNat_ofNat, Nat.mod_eq_of_lt (by omega)]
    exact List.length_pos_iff.mpr hne
  rw [symbolInsert, if_pos hpos]

private theorem symbolInsert_spec (hl : s.HoldsAt 0 l) (hlen : l.length < 2 ^ 60)
    (hfirst : first ∈ l) (hle : first.key ≤ e.key) (hrounds : l.length ≤ rounds)
    (hbelow : s.AccessedBelow n) (hn : l.length < n) :
    ∃ t, symbolInsert rounds (BitVec.ofNat 64 l.length) e s = some t ∧
      t.HoldsAt 0 (insertByKey SymbolMap.key l e) ∧ t.AccessedBelow n := by
  have hplace : upTo SymbolMap.key l e ≠ [] := upTo_ne_nil hfirst hle
  obtain ⟨t, hshift, hfront, htail, hbelow⟩ :=
    symbolShift_spec hl (show s.HoldsAt (l.length + 1) [] from trivial) hlen hplace hrounds hbelow hn
  have hplaceLe : (upTo SymbolMap.key l e).length + (above SymbolMap.key l e).length = l.length := by
    rw [← List.length_append, upTo_append_above]
  rw [symbolInsert_next (List.ne_nil_of_mem hfirst) hlen, hshift]
  refine ⟨_, rfl, ?_, ?_⟩
  · rw [BitVec.sub_add_cancel, insertByKey, holdsAt_append, Nat.zero_add]
    rw [List.append_nil] at htail
    refine ⟨?_, entry_store_self _ _ _, ?_⟩
    · apply hfront.store (by omega) (by omega)
      omega
    · apply htail.store (by omega) (by omega)
      omega
  · rw [BitVec.sub_add_cancel]
    exact hbelow.store (by omega)

private theorem symbolInsert_below (hl : s.HoldsAt 0 l) (hne : l ≠ []) (hlen : l.length < 2 ^ 60)
    (hlt : ∀ b ∈ l, e.key < b.key)
    (h : symbolInsert rounds (BitVec.ofNat 64 l.length) e s = some t) : -1 ∈ t.accessed := by
  rw [symbolInsert_next hne hlen, Option.bind_eq_bind, Option.bind_eq_some_iff] at h
  obtain ⟨⟨j, u⟩, hshift, ht⟩ := h
  cases ht
  exact List.mem_cons_of_mem _ (symbolShift_below hl hlen hlt hshift)

private theorem symbolInsert_mono {ai : BitVec 64} {rounds' : Nat} (hle : rounds ≤ rounds')
    (h : symbolInsert rounds ai e s = some t) : symbolInsert rounds' ai e s = some t := by
  rw [symbolInsert] at h ⊢
  split at h
  · rw [Option.bind_eq_bind, Option.bind_eq_some_iff] at h
    obtain ⟨r, hshift, ht⟩ := h
    rw [if_pos ‹_›, symbolShift_mono hle hshift]
    exact ht
  · rw [if_neg ‹_›]
    exact h

private theorem symbolInsert_accessed {ai : BitVec 64} (h : symbolInsert rounds ai e s = some t) :
    s.accessed ⊆ t.accessed := by
  rw [symbolInsert] at h
  split at h
  · rw [Option.bind_eq_bind, Option.bind_eq_some_iff] at h
    obtain ⟨⟨j, u⟩, hshift, ht⟩ := h
    cases ht
    exact List.Subset.trans (symbolShift_accessed hshift).2 (List.subset_cons_self _ _)
  · cases h
    exact List.subset_cons_self _ _

private theorem symbolInsert_behind_first (hl : s.HoldsAt 0 (first :: l))
    (hlen : l.length + 1 < 2 ^ 60)
    (hle : first.key ≤ e.key) (hrounds : l.length + 1 ≤ rounds) (hbelow : s.AccessedBelow n)
    (hn : l.length + 1 < n) :
    ∃ l' t, l'.length = l.length + 1 ∧
      symbolInsert rounds (BitVec.ofNat 64 (l.length + 1)) e s = some t ∧
      insertByKey SymbolMap.key (first :: l) e = first :: l' ∧ t.HoldsAt 0 (first :: l') ∧
      t.AccessedBelow n := by
  obtain ⟨t, hinsert, ht, htbelow⟩ :=
    symbolInsert_spec hl hlen List.mem_cons_self hle hrounds hbelow hn
  obtain ⟨l', hl'⟩ : ∃ l', insertByKey SymbolMap.key (first :: l) e = first :: l' :=
    insertByKey_cons hle
  have hperm : (insertByKey SymbolMap.key (first :: l) e).length = (e :: first :: l).length :=
    (insertByKey_perm (first :: l) e).length_eq
  rw [hl'] at ht hperm
  exact ⟨l', t, by simpa using hperm, hinsert, hl', ht, htbelow⟩

/-! ## All symbols -/

/-- The loop over the symbols, without those that are left out. -/
def insertPairs (rounds : Nat) : List SymbolMap → Nat → SymbolArray → Option SymbolArray
  | [], _, s => some s
  | e :: pairs, ai, s => do
      let s ← symbolInsert rounds (BitVec.ofNat 64 ai) e s
      insertPairs rounds pairs (ai + 1) s

private theorem symbolOrder_eq (rounds : Nat) (symbols : List Elf64Symbol) (i ai : Nat)
    (s : SymbolArray) : symbolOrder rounds symbols (BitVec.ofNat 64 i) (BitVec.ofNat 64 ai) s =
      insertPairs rounds (symbolPairs symbols i) ai s := by
  have hsucc (k : Nat) : BitVec.ofNat 64 k + 1 = BitVec.ofNat 64 (k + 1) :=
    (BitVec.ofNat_add k 1).symm
  induction symbols generalizing i ai s with
  | nil => rfl
  | cons symbol symbols ih =>
      by_cases hzero : symbol.stValue = 0
      · rw [symbolOrder, if_pos hzero, symbolPairs_cons_zero symbols i hzero, hsucc, ih]
      · rw [symbolOrder, if_neg hzero, symbolPairs_cons symbols i hzero, insertPairs, hsucc, hsucc]
        simp only [ih]

private theorem insertPairs_spec (hl : s.HoldsAt 0 (first :: l))
    (hlen : l.length + 1 + pairs.length ≤ 2 ^ 60) (hle : ∀ e ∈ pairs, first.key ≤ e.key)
    (hrounds : l.length + 1 + pairs.length ≤ rounds) (hbelow : s.AccessedBelow n)
    (hn : l.length + 1 + pairs.length ≤ n) :
    ∃ t, insertPairs rounds pairs (l.length + 1) s = some t ∧
      t.HoldsAt 0 (pairs.foldl (insertByKey SymbolMap.key) (first :: l)) ∧ t.AccessedBelow n := by
  induction pairs generalizing l s with
  | nil => exact ⟨s, rfl, hl, hbelow⟩
  | cons e pairs ih =>
      rw [List.length_cons] at hlen hrounds hn
      obtain ⟨l', t, hlength, hinsert, hfold, ht, htbelow⟩ :=
        symbolInsert_behind_first hl (by omega) (hle e List.mem_cons_self)
          (show l.length + 1 ≤ rounds by omega) hbelow (by omega)
      rw [insertPairs, hinsert, List.foldl_cons, hfold, Option.bind_eq_bind, Option.bind_some,
        ← hlength]
      apply ih ht
      · omega
      · intro a ha
        exact hle a (List.mem_cons_of_mem e ha)
      · omega
      · exact htbelow
      · omega

private theorem insertPairs_mono {ai rounds' : Nat} (hle : rounds ≤ rounds')
    (h : insertPairs rounds pairs ai s = some t) : insertPairs rounds' pairs ai s = some t := by
  induction pairs generalizing ai s with
  | nil => exact h
  | cons e pairs ih =>
      rw [insertPairs, Option.bind_eq_bind, Option.bind_eq_some_iff] at h
      obtain ⟨u, hinsert, hrest⟩ := h
      rw [insertPairs, symbolInsert_mono hle hinsert]
      exact ih hrest

private theorem insertPairs_accessed {ai : Nat} (h : insertPairs rounds pairs ai s = some t) :
    s.accessed ⊆ t.accessed := by
  induction pairs generalizing ai s with
  | nil =>
      cases h
      exact List.Subset.refl _
  | cons e pairs ih =>
      rw [insertPairs, Option.bind_eq_bind, Option.bind_eq_some_iff] at h
      obtain ⟨u, hinsert, hrest⟩ := h
      exact List.Subset.trans (symbolInsert_accessed hinsert) (ih hrest)

private theorem insertPairs_first_le (hl : s.HoldsAt 0 (first :: l))
    (hfirst : ∀ b ∈ first :: l, first.key ≤ b.key)
    (hlen : l.length + 1 + pairs.length ≤ 2 ^ 60)
    (hrounds : l.length + 1 + pairs.length ≤ rounds) (hn : l.length + 1 + pairs.length ≤ n)
    (hn' : n ≤ 2 ^ 60) (h : insertPairs rounds pairs (l.length + 1) s = some t)
    (hbelow : t.AccessedBelow n) : ∀ e ∈ pairs, first.key ≤ e.key := by
  induction pairs generalizing l s with
  | nil => exact fun e he => absurd he List.not_mem_nil
  | cons e pairs ih =>
      rw [List.length_cons] at hlen hrounds hn
      have hsbelow : s.AccessedBelow n := fun j hj => hbelow j (insertPairs_accessed h hj)
      rw [insertPairs, Option.bind_eq_bind, Option.bind_eq_some_iff] at h
      obtain ⟨u, hu, hrest⟩ := h
      by_cases hefirst : first.key ≤ e.key
      · obtain ⟨l', u', hlength, hinsert, hfold, hl', -⟩ :=
          symbolInsert_behind_first hl (by omega) hefirst (show l.length + 1 ≤ rounds by omega)
            hsbelow (by omega)
        obtain rfl : u' = u := Option.some.inj (hinsert.symm.trans hu)
        rw [List.forall_mem_cons]
        refine ⟨hefirst, ?_⟩
        rw [← hlength] at hrest
        apply ih hl'
        · intro b hb
          rw [← hfold, (insertByKey_perm (first :: l) e).mem_iff] at hb
          rcases List.mem_cons.mp hb with rfl | hb
          · exact hefirst
          · exact hfirst b hb
        · omega
        · omega
        · omega
        · exact hrest
      · have hout := symbolInsert_below hl (List.cons_ne_nil _ _) (by simp; omega)
          (fun b hb => (not_le.mp hefirst).trans_le (hfirst b hb)) hu
        have := hbelow _ (insertPairs_accessed hrest hout)
        exact absurd this (by simp; omega)

/-! ## The whole map -/

private theorem symbolMapNum_eq (symbols : List Elf64Symbol) :
    symbolMapNum symbols = BitVec.ofNat 64 (symbolPairs symbols 0).length := by
  have hfrom (num i : Nat) : symbols.foldl
      (fun num symbol => if symbol.stValue = 0 then num else num + 1) (BitVec.ofNat 64 num) =
        BitVec.ofNat 64 (num + (symbolPairs symbols i).length) := by
    induction symbols generalizing num i with
    | nil => rfl
    | cons symbol symbols ih =>
        by_cases hzero : symbol.stValue = 0
        · rw [List.foldl_cons, if_pos hzero, symbolPairs_cons_zero symbols i hzero, ih]
        · rw [List.foldl_cons, if_neg hzero, symbolPairs_cons symbols i hzero, List.length_cons,
            show BitVec.ofNat 64 num + 1 = BitVec.ofNat 64 (num + 1) from
              (BitVec.ofNat_add num 1).symm, ih, Nat.add_assoc, Nat.add_comm 1]
  rw [← Nat.zero_add (symbolPairs symbols 0).length]
  exact hfrom 0 0

/-- What the loop is for: it ends, uses only elements of the array, and leaves the pairs of all
symbols with a value there, by address and, with the same address, in the order of the table. -/
def BuildsSymbolMap (symbols : List Elf64Symbol) (cells : BitVec 60 → SymbolMap) : Prop :=
  ∃ rounds t, symbolOrder rounds symbols 0 0 { cells } = some t ∧
    (∀ j ∈ t.accessed, j < symbolMapNum symbols) ∧
    (t.toList (symbolMapNum symbols).toNat).Perm (symbolPairs symbols 0) ∧
    KeyOrdered SymbolMap.key (fun a b => a.symbolIndex < b.symbolIndex)
      (t.toList (symbolMapNum symbols).toNat)

/-- No symbol with a value is below the first one in the table. -/
def FirstIsLeast (symbols : List Elf64Symbol) : Prop :=
  ∀ first ∈ symbols.find? (·.stValue ≠ 0), ∀ symbol ∈ symbols, symbol.stValue ≠ 0 →
    first.stValue ≤ symbol.stValue

instance (symbols : List Elf64Symbol) : Decidable (FirstIsLeast symbols) := by
  unfold FirstIsLeast
  infer_instance

private theorem symbolPairs_ordered (symbols : List Elf64Symbol) (i : Nat)
    (h : i + symbols.length ≤ 2 ^ 64) :
    (symbolPairs symbols i).Pairwise fun a b => a.symbolIndex < b.symbolIndex := by
  rw [symbolPairs, List.pairwise_map]
  apply List.Pairwise.filter
  rw [List.pairwise_iff_getElem]
  intro a b ha hb hab
  rw [List.length_zipIdx] at ha hb
  rw [BitVec.lt_def, List.getElem_zipIdx, List.getElem_zipIdx, BitVec.toNat_ofNat,
    BitVec.toNat_ofNat, Nat.mod_eq_of_lt (by omega), Nat.mod_eq_of_lt (by omega)]
  omega

private theorem symbolPairs_address (symbols : List Elf64Symbol) (i : Nat) :
    (symbolPairs symbols i).map (·.address) =
      (symbols.filter (·.stValue ≠ 0)).map (·.stValue) := by
  induction symbols generalizing i with
  | nil => rfl
  | cons symbol symbols ih =>
      by_cases hzero : symbol.stValue = 0
      · rw [symbolPairs_cons_zero symbols i hzero, ih, List.filter_cons_of_neg (by simpa using hzero)]
      · rw [symbolPairs_cons symbols i hzero, List.map_cons, ih,
          List.filter_cons_of_pos (by simpa using hzero), List.map_cons]

private theorem firstIsLeast_iff (h : symbolPairs symbols 0 = first :: pairs) :
    FirstIsLeast symbols ↔ ∀ e ∈ pairs, first.key ≤ e.key := by
  have haddress := symbolPairs_address symbols 0
  cases hvalued : symbols.filter (·.stValue ≠ 0) with
  | nil =>
      rw [h, hvalued] at haddress
      exact absurd haddress (List.cons_ne_nil _ _)
  | cons symbol rest =>
      rw [h, hvalued, List.map_cons, List.map_cons, List.cons.injEq] at haddress
      obtain ⟨hfirst, hrest⟩ := haddress
      have hmem (a : Elf64Symbol) : a ∈ symbols ∧ a.stValue ≠ 0 ↔ a ∈ symbol :: rest := by
        rw [← hvalued, List.mem_filter, decide_eq_true_eq]
      rw [FirstIsLeast, ← List.head?_filter, hvalued, List.head?_cons]
      constructor
      · intro hleast e he
        have haddr : e.address ∈ rest.map (·.stValue) := hrest ▸ List.mem_map_of_mem he
        obtain ⟨a, ha, hvalue⟩ := List.mem_map.mp haddr
        have hboth := (hmem a).mpr (List.mem_cons_of_mem symbol ha)
        have hle := hleast symbol rfl a hboth.1 hboth.2
        rwa [hvalue, ← hfirst] at hle
      · intro hle b hb a ha hne
        obtain rfl : symbol = b := Option.some.inj hb
        rw [← hfirst]
        rcases List.mem_cons.mp ((hmem a).mp ⟨ha, hne⟩) with rfl | harest
        · rw [hfirst]
          exact BitVec.le_refl _
        · have haddr : a.stValue ∈ pairs.map (·.address) := hrest ▸ List.mem_map_of_mem harest
          obtain ⟨e, he, hvalue⟩ := List.mem_map.mp haddr
          rw [← hvalue]
          exact hle e he

private theorem holdsAt_store_first (cells : BitVec 60 → SymbolMap) (first : SymbolMap) :
    (SymbolArray.store { cells } 0 first).HoldsAt 0 [first] :=
  ⟨entry_store_self _ _ _, trivial⟩

private theorem symbolOrder_spec (cells : BitVec 60 → SymbolMap) (hfits : symbols.length ≤ 2 ^ 60)
    (hpairs : symbolPairs symbols 0 = first :: pairs) (hle : ∀ e ∈ pairs, first.key ≤ e.key) :
    ∃ t, symbolOrder symbols.length symbols 0 0 { cells } = some t ∧
      t.HoldsAt 0 (sortByKey SymbolMap.key (first :: pairs)) ∧ t.AccessedBelow (pairs.length + 1) := by
  have hlen := symbolPairs_length_le symbols 0
  rw [hpairs, List.length_cons, Nat.add_comm] at hlen
  have hbelow : (SymbolArray.store { cells } 0 first).AccessedBelow (pairs.length + 1) := by
    intro j hj
    obtain rfl : j = 0 := List.mem_singleton.mp hj
    exact Nat.succ_pos _
  obtain ⟨t, ht, hholds, htbelow⟩ := insertPairs_spec (holdsAt_store_first cells first)
    (hlen.trans hfits) hle hlen hbelow (Nat.add_comm 1 _).le
  refine ⟨t, ?_, hholds, htbelow⟩
  have heq := symbolOrder_eq symbols.length symbols 0 0 { cells }
  rw [hpairs] at heq
  exact heq.trans ht

private theorem symbolOrder_first_le {cells : BitVec 60 → SymbolMap}
    (hfits : symbols.length ≤ 2 ^ 60) (hpairs : symbolPairs symbols 0 = first :: pairs)
    (h : symbolOrder rounds symbols 0 0 { cells } = some t)
    (hbelow : t.AccessedBelow (pairs.length + 1)) : ∀ e ∈ pairs, first.key ≤ e.key := by
  have hlen := symbolPairs_length_le symbols 0
  have hrun := (symbolOrder_eq rounds symbols 0 0 { cells }).symm.trans h
  rw [hpairs] at hlen hrun
  rw [List.length_cons, Nat.add_comm] at hlen
  -- As many rounds as the symbols need do not change a run that has come to its end.
  have hmore := insertPairs_mono (Nat.le_max_left rounds (1 + pairs.length)) hrun
  apply insertPairs_first_le (holdsAt_store_first cells first)
  · intro b hb
    rw [List.mem_singleton.mp hb]
  · exact hlen.trans hfits
  · exact Nat.le_max_right rounds _
  · exact (Nat.add_comm 1 _).le
  · rw [Nat.add_comm]
    exact hlen.trans hfits
  · exact hmore
  · exact hbelow

private theorem symbolOrder_of_pairs_eq_nil (cells : BitVec 60 → SymbolMap)
    (hpairs : symbolPairs symbols 0 = []) :
    symbolOrder rounds symbols 0 0 { cells } = some { cells } := by
  have heq := symbolOrder_eq rounds symbols 0 0 { cells }
  rw [hpairs] at heq
  exact heq

private theorem firstIsLeast_of_pairs_eq_nil (hpairs : symbolPairs symbols 0 = []) :
    FirstIsLeast symbols := by
  have haddress := symbolPairs_address symbols 0
  rw [hpairs, List.map_nil, eq_comm, List.map_eq_nil_iff] at haddress
  rw [FirstIsLeast, ← List.head?_filter, haddress]
  intro first hfirst
  exact absurd hfirst (by simp)

theorem buildsSymbolMap_iff (symbols : List Elf64Symbol) (cells : BitVec 60 → SymbolMap)
    (hfits : 24 * symbols.length ≤ 2 ^ 64) :
    BuildsSymbolMap symbols cells ↔ FirstIsLeast symbols := by
  have hlen := symbolPairs_length_le symbols 0
  have hnum : (symbolMapNum symbols).toNat = (symbolPairs symbols 0).length := by
    rw [symbolMapNum_eq, BitVec.toNat_ofNat, Nat.mod_eq_of_lt (by omega)]
  cases hpairs : symbolPairs symbols 0 with
  | nil =>
      rw [iff_true_right (firstIsLeast_of_pairs_eq_nil hpairs)]
      rw [hpairs] at hnum
      refine ⟨0, { cells }, symbolOrder_of_pairs_eq_nil cells hpairs, by simp, ?_, ?_⟩
      · rw [hnum, hpairs]
        rfl
      · rw [hnum]
        exact List.Pairwise.nil
  | cons first pairs =>
      rw [hpairs, List.length_cons] at hnum
      rw [firstIsLeast_iff hpairs]
      constructor
      · rintro ⟨rounds, t, ht, hin, -⟩
        apply symbolOrder_first_le (by omega) hpairs ht
        intro j hj
        rw [← hnum]
        exact hin j hj
      · intro hle
        obtain ⟨t, ht, hholds, hbelow⟩ := symbolOrder_spec cells (by omega) hpairs hle
        have hperm : (sortByKey SymbolMap.key (first :: pairs)).Perm (first :: pairs) :=
          sortByKey_perm _
        have hlist := hholds.toList
        rw [hperm.length_eq, List.length_cons, ← hnum] at hlist
        refine ⟨symbols.length, t, ht, ?_, ?_, ?_⟩
        · intro j hj
          rw [BitVec.lt_def, hnum]
          exact hbelow j hj
        · rw [hlist, hpairs]
          exact hperm
        · rw [hlist]
          apply sortByKey_ordered
          rw [← hpairs]
          exact symbolPairs_ordered symbols 0 (by omega)

/-- A file symbol, which has no value, and three functions with ascending addresses, the last two
the same. -/
def ascendingSymbols : List Elf64Symbol :=
  [⟨1, 0, 0⟩, ⟨8, 1, 0x1000⟩, ⟨15, 1, 0x1040⟩, ⟨22, 1, 0x1040⟩]

theorem buildsSymbolMap_ascending :
    24 * ascendingSymbols.length ≤ 2 ^ 64 ∧ BuildsSymbolMap ascendingSymbols fun _ => ⟨0, 0⟩ :=
  ⟨by decide, (buildsSymbolMap_iff ascendingSymbols _ (by decide)).mpr (by decide)⟩

/-- The address of the second function is below that of the first. -/
def descendingSymbols : List Elf64Symbol := [⟨8, 1, 0x1040⟩, ⟨15, 1, 0x1000⟩]

theorem not_buildsSymbolMap_descending :
    ¬ BuildsSymbolMap descendingSymbols fun _ => ⟨0, 0⟩ := by
  rintro ⟨rounds, t, ht, hin, -⟩
  have hle := symbolOrder_first_le (by decide) (show symbolPairs descendingSymbols 0 = _ from rfl)
    ht fun j hj => hin j hj
  exact absurd hle (by decide)

end VisualOS.Kernel
