import Mathlib.Tactic

/-!
# Records in memory

Numbers stored least significant byte first, and records of them laid out one behind the other.
What is read at the place of a field is the number that was stored there.
-/

namespace VisualOS.Framework

/-- The first `n` bytes of a number. -/
def leBytes : Nat → Nat → List (BitVec 8)
  | 0, _ => []
  | n + 1, value => BitVec.ofNat 8 value :: leBytes n (value / 256)

/-- The number in the `n` bytes from an address on. -/
def readLe (memory : Nat → BitVec 8) : Nat → Nat → Nat
  | 0, _ => 0
  | n + 1, address => (memory address).toNat + 256 * readLe memory n (address + 1)

/-- The bytes are in memory from an address on. -/
def LaidOut (memory : Nat → BitVec 8) : Nat → List (BitVec 8) → Prop
  | _, [] => True
  | address, b :: bs => memory address = b ∧ LaidOut memory (address + 1) bs

@[simp] theorem leBytes_length (n value : Nat) : (leBytes n value).length = n := by
  induction n generalizing value with
  | zero => rfl
  | succ n ih => simp [leBytes, ih]

variable {memory : Nat → BitVec 8} {address n value : Nat} {xs ys : List (BitVec 8)}

theorem LaidOut.read (h : LaidOut memory address (leBytes n value)) :
    readLe memory n address = value % 256 ^ n := by
  induction n generalizing address value with
  | zero => simp [readLe, Nat.mod_one]
  | succ n ih =>
      obtain ⟨hfirst, hrest⟩ := h
      rw [readLe, hfirst, ih hrest, BitVec.toNat_ofNat, pow_succ' 256 n, Nat.mod_mul]

theorem laidOut_iff : LaidOut memory address xs ↔
    ∀ (i : Nat) (hi : i < xs.length), memory (address + i) = xs[i] := by
  induction xs generalizing address with
  | nil => simp [LaidOut]
  | cons x xs ih =>
      rw [LaidOut, ih]
      constructor
      · rintro ⟨hfirst, hrest⟩ i hi
        cases i with
        | zero => exact hfirst
        | succ i =>
            have := hrest i (Nat.lt_of_succ_lt_succ hi)
            rwa [show address + 1 + i = address + (i + 1) by omega] at this
      · intro h
        refine ⟨h 0 (Nat.zero_lt_succ _), ?_⟩
        intro i hi
        have := h (i + 1) (Nat.succ_lt_succ hi)
        rwa [show address + (i + 1) = address + 1 + i by omega] at this

theorem laidOut_append : LaidOut memory address (xs ++ ys) ↔
    LaidOut memory address xs ∧ LaidOut memory (address + xs.length) ys := by
  induction xs generalizing address with
  | nil => simp [LaidOut]
  | cons x xs ih =>
      rw [List.cons_append, LaidOut, LaidOut, ih, List.length_cons, and_assoc,
        show address + 1 + xs.length = address + (xs.length + 1) by omega]

theorem readLe_add (memory : Nat → BitVec 8) (i j address : Nat) :
    readLe memory (i + j) address =
      readLe memory i address + 256 ^ i * readLe memory j (address + i) := by
  induction i generalizing address with
  | zero => simp [readLe]
  | succ i ih =>
      rw [Nat.succ_add, readLe, ih, readLe, pow_succ', show address + 1 + i = address + (i + 1) by omega]
      ring

theorem LaidOut.getElem (size : Nat) {records : List (List (BitVec 8))}
    (h : LaidOut memory address records.flatten) (hsize : ∀ r ∈ records, r.length = size)
    {i : Nat} (hi : i < records.length) : LaidOut memory (address + size * i) records[i] := by
  induction records generalizing address i with
  | nil => exact absurd hi (Nat.not_lt_zero i)
  | cons r records ih =>
      rw [List.flatten_cons, laidOut_append, hsize r List.mem_cons_self] at h
      cases i with
      | zero => exact h.1
      | succ i =>
          have := ih h.2 (fun r' hr' => hsize r' (List.mem_cons_of_mem r hr'))
            (Nat.lt_of_succ_lt_succ hi)
          rwa [show address + size + size * i = address + size * (i + 1) by ring] at this

end VisualOS.Framework
