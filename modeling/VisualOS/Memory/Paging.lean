import VisualOS.Framework.LinkedTables

/-!
# Page tables

`paging.c` over a memory of pages read as tables.  Pointers and entries are 64-bit words, and
the kernel's pointers to tables are physical addresses, since it runs identity-mapped.
-/

namespace VisualOS.Kernel

open Framework

/-- `1 << bit`: an `int`, whose shift takes the count modulo 32, widened to 64 bits. -/
def shiftedOne (bit : Nat) : BitVec 64 := (1#32 <<< (bit % 32)).signExtend 64

/-- `GET_BIT`. -/
def getBit (n : BitVec 64) (bit : Nat) : Bool := decide (0 < shiftedOne bit &&& n)

/-- `SET_BIT`. -/
def setBit (n : BitVec 64) (bit : Nat) (value : Bool) : BitVec 64 :=
  n ^^^ ((-(BitVec.ofBool value).zeroExtend 64 ^^^ n) &&& shiftedOne bit)

inductive PageDirectoryFlagBit
  | present
  | writable
  | userspace
  | writethrough
  | nocache
  | accessed
  | largerpages
  | osAvailable
  | noexecute
  deriving DecidableEq, Repr

def PageDirectoryFlagBit.toNat : PageDirectoryFlagBit → Nat
  | present => 0
  | writable => 1
  | userspace => 2
  | writethrough => 3
  | nocache => 4
  | accessed => 5
  | largerpages => 7
  | osAvailable => 11
  | noexecute => 63

structure PageLevelIndexes where
  L4_i : BitVec 9
  L3_i : BitVec 9
  L2_i : BitVec 9
  L1_i : BitVec 9

def pagingGetIndexes (address : BitVec 64) : PageLevelIndexes :=
  let address64 := address >>> 12
  let L1_i := (address64 &&& 0x01ff#64).setWidth 9
  let address64 := address64 >>> 9
  let L2_i := (address64 &&& 0x01ff#64).setWidth 9
  let address64 := address64 >>> 9
  let L3_i := (address64 &&& 0x01ff#64).setWidth 9
  let address64 := address64 >>> 9
  let L4_i := (address64 &&& 0x01ff#64).setWidth 9
  { L4_i, L3_i, L2_i, L1_i }

def pagingSetEntryAddress (entry address : BitVec 64) : BitVec 64 :=
  (entry &&& 0xfff0000000000fff#64) ||| ((address &&& 0x000000ffffffffff#64) <<< 12)

def pagingGetEntryAddress (entry : BitVec 64) : BitVec 64 := (entry &&& 0x000ffffffffff000#64) >>> 12

/-- The number of the page a pointer leads to. -/
def pageNumber (pointer : BitVec 64) : BitVec 52 := pointer.extractLsb' 12 52

/-- Memory as tables of entries, and what the successive calls of `pageframe_request` answer. -/
structure Paging where
  memory : BitVec 52 → BitVec 9 → BitVec 64
  answers : Nat → BitVec 64
  requests : Nat

namespace Paging

def read (s : Paging) (table : BitVec 64) (index : BitVec 9) : BitVec 64 :=
  s.memory (pageNumber table) index

def write (s : Paging) (table : BitVec 64) (index : BitVec 9) (entry : BitVec 64) : Paging :=
  { s with memory := writeEntry s.memory (pageNumber table) index entry }

/-- `memset` of a whole page to 0. -/
def zero (s : Paging) (table : BitVec 64) : Paging :=
  { s with memory := clearTable s.memory (pageNumber table) 0 }

def request (s : Paging) : BitVec 64 × Paging :=
  (s.answers s.requests, { s with requests := s.requests + 1 })

end Paging

/-- The block of `paging_map_page` that goes down one level and is written out three times:
the table under the entry, created if the entry is not present. -/
def pagingNextTable (table : BitVec 64) (index : BitVec 9) (s : Paging) : BitVec 64 × Paging :=
  let entry := s.read table index
  if getBit entry PageDirectoryFlagBit.present.toNat = false then
    let (next, s) := s.request
    let s := s.zero next
    let entry := pagingSetEntryAddress entry (next >>> 12)
    let entry := entry ||| shiftedOne PageDirectoryFlagBit.present.toNat
    (next, s.write table index entry)
  else (pagingGetEntryAddress entry <<< 12, s)

def pagingMapPage (pagetableL4 virtualAddress physicalAddress : BitVec 64) (s : Paging) : Paging :=
  let indexes := pagingGetIndexes virtualAddress
  let (pagetableL3, s) := pagingNextTable pagetableL4 indexes.L4_i s
  let (pagetableL2, s) := pagingNextTable pagetableL3 indexes.L3_i s
  let (pagetableL1, s) := pagingNextTable pagetableL2 indexes.L2_i s
  let entry := s.read pagetableL1 indexes.L1_i
  let entry := pagingSetEntryAddress entry (physicalAddress >>> 12)
  let entry := entry ||| shiftedOne PageDirectoryFlagBit.present.toNat
  s.write pagetableL1 indexes.L1_i entry

/-- The page an entry leads to when the processor follows it: none unless its present bit is
set, and the page numbered by its bits 12 to 51 otherwise. -/
def entryTarget (entry : BitVec 64) : Option (BitVec 52) :=
  if entry.getLsbD 0 then some ((entry.extractLsb' 12 40).zeroExtend 52) else none

/-- The four indices the processor takes from a virtual address. -/
def walkIndexes (virtualAddress : BitVec 64) : List (BitVec 9) :=
  [virtualAddress.extractLsb' 39 9, virtualAddress.extractLsb' 30 9,
    virtualAddress.extractLsb' 21 9, virtualAddress.extractLsb' 12 9]

/-- The processor's walk over four levels. -/
def translate (memory : BitVec 52 → BitVec 9 → BitVec 64) (root virtualAddress : BitVec 64) :
    Option (BitVec 52) :=
  descend entryTarget memory (pageNumber root) (walkIndexes virtualAddress)

/-! ## Encodings -/

section Bits

variable {n entry address : BitVec 64} {bit i : Nat}

theorem shiftedOne_eq_twoPow (h : bit < 31) : shiftedOne bit = BitVec.twoPow 64 bit := by
  interval_cases bit <;> rfl

theorem getBit_eq (h : bit < 31) : getBit n bit = n.getLsbD bit := by
  rw [getBit, shiftedOne_eq_twoPow h, BitVec.and_comm, BitVec.and_twoPow]
  by_cases hbit : n.getLsbD bit = true
  · have hpos : (0 : BitVec 64) < BitVec.twoPow 64 bit := by
      rw [BitVec.lt_def, BitVec.toNat_twoPow_of_lt (by omega)]
      exact Nat.two_pow_pos bit
    rw [if_pos hbit, hbit]
    exact decide_eq_true hpos
  · simp [hbit]

theorem getLsbD_setBit_mask (n : BitVec 64) (bit : Nat) (value : Bool) (hi : i < 64) :
    (setBit n bit value).getLsbD i =
      if (shiftedOne bit).getLsbD i then value else n.getLsbD i := by
  have hsign : (-(BitVec.ofBool value).zeroExtend 64).getLsbD i = value := by
    cases value
    · simp
    · rw [show -(BitVec.ofBool true).zeroExtend 64 = BitVec.allOnes 64 from rfl,
        BitVec.getLsbD_allOnes]
      exact decide_eq_true hi
  rw [setBit, BitVec.getLsbD_xor, BitVec.getLsbD_and, BitVec.getLsbD_xor, hsign]
  cases (shiftedOne bit).getLsbD i
  · simp
  · cases n.getLsbD i <;> cases value <;> rfl

theorem setBit_setBit (n : BitVec 64) (bit : Nat) (value : Bool) :
    setBit (setBit n bit value) bit value = setBit n bit value := by
  apply BitVec.eq_of_getLsbD_eq
  intro i hi
  rw [getLsbD_setBit_mask _ _ _ hi, getLsbD_setBit_mask _ _ _ hi]
  split <;> rfl

theorem getLsbD_setBit (h : bit < 31) (value : Bool) (hi : i < 64) :
    (setBit n bit value).getLsbD i = if i = bit then value else n.getLsbD i := by
  rw [getLsbD_setBit_mask _ _ _ hi, shiftedOne_eq_twoPow h, BitVec.getLsbD_twoPow]
  by_cases hib : i = bit
  · simp [← hib, hi]
  · simp [hib, Ne.symm hib]

/-- The shift by 63 is one by 31, whose sign fills the upper half of the word. -/
theorem getLsbD_shiftedOne_noexecute (hi : i < 64) :
    (shiftedOne PageDirectoryFlagBit.noexecute.toNat).getLsbD i = decide (31 ≤ i) := by
  interval_cases i <;> rfl

private theorem getLsbD_lowMask (hi : i < 64) :
    (0x000000ffffffffff#64).getLsbD i = decide (i < 40) := by
  rw [show 0x000000ffffffffff#64 = BitVec.allOnes 64 >>> 24 from rfl,
    BitVec.getLsbD_ushiftRight, BitVec.getLsbD_allOnes]
  exact decide_eq_decide.mpr (by omega)

private theorem getLsbD_addressMask (hi : i < 64) :
    (0x000ffffffffff000#64).getLsbD i = decide (12 ≤ i ∧ i < 52) := by
  rw [show 0x000ffffffffff000#64 =
      0x000000ffffffffff#64 <<< 12 from rfl,
    BitVec.getLsbD_shiftLeft]
  by_cases h : 12 ≤ i
  · rw [getLsbD_lowMask (by omega), decide_eq_true hi, decide_eq_false (by omega)]
    exact decide_eq_decide.mpr (by omega)
  · simp [h, hi, show i < 12 by omega]

private theorem getLsbD_flagMask (hi : i < 64) :
    (0xfff0000000000fff#64).getLsbD i = !decide (12 ≤ i ∧ i < 52) := by
  rw [show 0xfff0000000000fff#64 =
      ~~~0x000ffffffffff000#64 from rfl, BitVec.getLsbD_not, getLsbD_addressMask hi, decide_eq_true hi, Bool.true_and]

theorem getLsbD_linkedEntry (hi : i < 64) :
    (pagingSetEntryAddress entry (address >>> 12) |||
      shiftedOne PageDirectoryFlagBit.present.toNat).getLsbD i =
      if i = 0 then true else if 12 ≤ i ∧ i < 52 then address.getLsbD i
      else entry.getLsbD i := by
  rw [show PageDirectoryFlagBit.present.toNat = 0 from rfl, shiftedOne_eq_twoPow (by decide),
    pagingSetEntryAddress, BitVec.getLsbD_or, BitVec.getLsbD_or, BitVec.getLsbD_and,
    getLsbD_flagMask hi, BitVec.getLsbD_shiftLeft, BitVec.getLsbD_and,
    BitVec.getLsbD_ushiftRight, BitVec.getLsbD_twoPow]
  by_cases h0 : i = 0
  · subst i
    simp
  · rw [if_neg h0]
    by_cases h : 12 ≤ i
    · rw [getLsbD_lowMask (by omega), show 12 + (i - 12) = i by omega]
      by_cases h' : i < 52
      · simp [h, h', Ne.symm h0, show i - 12 < 40 by omega, hi, show ¬i < 12 by omega]
      · simp [h', Ne.symm h0, show ¬i - 12 < 40 by omega]
    · simp [h, Ne.symm h0, show i < 12 by omega]

/-- A page-aligned address below `2 ^ 52`. -/
def IsFrameAddress (address : BitVec 64) : Prop :=
  address.toNat % 4096 = 0 ∧ address.toNat < 2 ^ 52

instance : DecidablePred IsFrameAddress := fun _ => inferInstanceAs (Decidable (_ ∧ _))

theorem IsFrameAddress.pageNumber_eq (h : IsFrameAddress address) :
    (address.extractLsb' 12 40).zeroExtend 52 = pageNumber address := by
  refine BitVec.eq_of_getLsbD_eq fun i hi => ?_
  rw [pageNumber, BitVec.getLsbD_setWidth, BitVec.getLsbD_extractLsb', BitVec.getLsbD_extractLsb']
  by_cases h40 : i < 40
  · simp [hi, h40]
  · have hhigh : address.getLsbD (12 + i) = false :=
      Nat.testBit_lt_two_pow (h.2.trans_le (Nat.pow_le_pow_right (by decide) (by omega)))
    simp [hi, h40, hhigh]

theorem IsFrameAddress.pageNumber_injective {address' : BitVec 64} (h : IsFrameAddress address)
    (h' : IsFrameAddress address') (hpage : pageNumber address = pageNumber address') :
    address = address' := by
  have hdiv := congrArg BitVec.toNat hpage
  simp only [pageNumber, BitVec.extractLsb'_toNat, Nat.shiftRight_eq_div_pow] at hdiv
  have hlt := h.2
  have hlt' := h'.2
  rw [Nat.mod_eq_of_lt (by omega), Nat.mod_eq_of_lt (by omega)] at hdiv
  refine BitVec.eq_of_toNat_eq ?_
  have := h.1
  have := h'.1
  omega

/-- The page that bits 12 to 51 of an address number. -/
def framePage (address : BitVec 64) : BitVec 52 := (address.extractLsb' 12 40).zeroExtend 52

theorem entryTarget_linkedEntry_low (entry address : BitVec 64) :
    entryTarget (pagingSetEntryAddress entry (address >>> 12) |||
      shiftedOne PageDirectoryFlagBit.present.toNat) = some (framePage address) := by
  rw [entryTarget, getLsbD_linkedEntry (by decide), if_pos rfl, if_pos rfl, framePage]
  congr 2
  refine BitVec.eq_of_getLsbD_eq fun i hi => ?_
  rw [BitVec.getLsbD_extractLsb', BitVec.getLsbD_extractLsb', getLsbD_linkedEntry (by omega),
    if_neg (by omega), if_pos (by omega)]

theorem entryTarget_linkedEntry (entry : BitVec 64) (h : IsFrameAddress address) :
    entryTarget (pagingSetEntryAddress entry (address >>> 12) |||
      shiftedOne PageDirectoryFlagBit.present.toNat) = some (pageNumber address) := by
  rw [entryTarget_linkedEntry_low, framePage, h.pageNumber_eq]

theorem entryTarget_zero : entryTarget 0 = none := rfl

theorem entryTarget_congr {entry' : BitVec 64}
    (h : ∀ i, i = 0 ∨ 12 ≤ i ∧ i < 52 → entry'.getLsbD i = entry.getLsbD i) :
    entryTarget entry' = entryTarget entry := by
  rw [entryTarget, entryTarget, h 0 (.inl rfl)]
  congr 3
  apply BitVec.eq_of_getLsbD_eq
  intro i hi
  rw [BitVec.getLsbD_extractLsb', BitVec.getLsbD_extractLsb', h (12 + i) (.inr (by omega))]

theorem entryTarget_absent (h : getBit entry PageDirectoryFlagBit.present.toNat = false) :
    entryTarget entry = none := by
  rw [getBit_eq (by decide)] at h
  rw [entryTarget, show (0 : Nat) = PageDirectoryFlagBit.present.toNat from rfl, h]
  rfl

theorem entryTarget_present (h : getBit entry PageDirectoryFlagBit.present.toNat ≠ false) :
    entryTarget entry = some (pageNumber (pagingGetEntryAddress entry <<< 12)) := by
  rw [getBit_eq (by decide), ne_eq, Bool.not_eq_false] at h
  rw [entryTarget, if_pos (show entry.getLsbD 0 = true from h)]
  congr 1
  refine BitVec.eq_of_getLsbD_eq fun i hi => ?_
  rw [pageNumber, BitVec.getLsbD_setWidth, BitVec.getLsbD_extractLsb', BitVec.getLsbD_extractLsb',
    BitVec.getLsbD_shiftLeft, pagingGetEntryAddress, BitVec.getLsbD_ushiftRight,
    BitVec.getLsbD_and, show 12 + (12 + i - 12) = 12 + i by omega, getLsbD_addressMask (by omega)]
  by_cases h40 : i < 40
  · simp [hi, h40, show 12 + i < 52 by omega, show 12 + i < 64 by omega]
  · simp [h40, show ¬12 + i < 52 by omega]

private theorem setWidth_low (n : BitVec 64) : (n &&& 0x01ff#64).setWidth 9 = n.setWidth 9 := by
  refine BitVec.eq_of_getLsbD_eq fun i hi => ?_
  rw [BitVec.getLsbD_setWidth, BitVec.getLsbD_setWidth, BitVec.getLsbD_and]
  have hmask : (0x01ff#64).getLsbD i = true := by
    interval_cases i <;> rfl
  rw [hmask, Bool.and_true]

theorem walkIndexes_eq (address : BitVec 64) :
    walkIndexes address = [(pagingGetIndexes address).L4_i, (pagingGetIndexes address).L3_i,
      (pagingGetIndexes address).L2_i, (pagingGetIndexes address).L1_i] := by
  have hlevel : ∀ k, (address >>> k).setWidth 9 = address.extractLsb' k 9 := by
    intro k
    refine BitVec.eq_of_getLsbD_eq fun i hi => ?_
    rw [BitVec.getLsbD_setWidth, BitVec.getLsbD_ushiftRight, BitVec.getLsbD_extractLsb']
  simp only [walkIndexes, pagingGetIndexes, setWidth_low, ← BitVec.shiftRight_add, hlevel]

/-- Two addresses take the same walk exactly when they agree on bits 12 to 47. -/
theorem walkIndexes_eq_iff {address' : BitVec 64} :
    walkIndexes address = walkIndexes address' ↔
      address.extractLsb' 12 36 = address'.extractLsb' 12 36 := by
  simp only [walkIndexes, List.cons.injEq, and_true]
  constructor
  · rintro ⟨h₄, h₃, h₂, h₁⟩
    have hlevel : ∀ {k b}, address.extractLsb' k 9 = address'.extractLsb' k 9 → k ≤ b →
        b < k + 9 → address.getLsbD b = address'.getLsbD b := by
      intro k b h hk hb
      have hbit := congrArg (fun v => BitVec.getLsbD v (b - k)) h
      simp only [BitVec.getLsbD_extractLsb'] at hbit
      rwa [decide_eq_true (by omega), Bool.true_and, Bool.true_and, Nat.add_sub_cancel' hk] at hbit
    refine BitVec.eq_of_getLsbD_eq fun i hi => ?_
    rw [BitVec.getLsbD_extractLsb', BitVec.getLsbD_extractLsb']
    congr 1
    rcases Nat.lt_or_ge i 9 with h | h
    · exact hlevel h₁ (by omega) (by omega)
    rcases Nat.lt_or_ge i 18 with h | h
    · exact hlevel h₂ (by omega) (by omega)
    rcases Nat.lt_or_ge i 27 with h | h
    · exact hlevel h₃ (by omega) (by omega)
    · exact hlevel h₄ (by omega) (by omega)
  · intro h
    have hbit : ∀ b, 12 ≤ b → b < 48 → address.getLsbD b = address'.getLsbD b := by
      intro b hb hb'
      have := congrArg (fun v => BitVec.getLsbD v (b - 12)) h
      simp only [BitVec.getLsbD_extractLsb'] at this
      rwa [decide_eq_true (by omega), Bool.true_and, Bool.true_and, Nat.add_sub_cancel' hb] at this
    have hlevel : ∀ k, 12 ≤ k → k ≤ 39 → address.extractLsb' k 9 = address'.extractLsb' k 9 := by
      intro k hk hk'
      refine BitVec.eq_of_getLsbD_eq fun i hi => ?_
      rw [BitVec.getLsbD_extractLsb', BitVec.getLsbD_extractLsb', hbit _ (by omega) (by omega)]
    exact ⟨hlevel 39 (by decide) (by decide), hlevel 30 (by decide) (by decide),
      hlevel 21 (by decide) (by decide), hlevel 12 (by decide) (by decide)⟩

end Bits

/-- The addresses that the processor accepts. -/
def Canonical (address : BitVec 64) : Prop :=
  address.toNat < 2 ^ 47 ∨ 2 ^ 64 - 2 ^ 47 ≤ address.toNat

theorem pageNumber_toNat (address : BitVec 64) :
    (pageNumber address).toNat = address.toNat / 4096 := by
  have := address.isLt
  rw [pageNumber, BitVec.extractLsb'_toNat, Nat.shiftRight_eq_div_pow]
  omega

theorem walkIndexes_eq_iff_page {address address' : BitVec 64} (h : Canonical address)
    (h' : Canonical address') :
    walkIndexes address = walkIndexes address' ↔ address.toNat / 4096 = address'.toNat / 4096 := by
  have := address.isLt
  have := address'.isLt
  rw [walkIndexes_eq_iff, ← BitVec.toNat_inj, BitVec.extractLsb'_toNat, BitVec.extractLsb'_toNat,
    Nat.shiftRight_eq_div_pow, Nat.shiftRight_eq_div_pow]
  rw [Canonical] at h h'
  omega

end VisualOS.Kernel
