import Mathlib.Tactic

/-!
# Bitmap

`bitmap.c`: an array of bits kept most significant first in a byte buffer.
-/

namespace VisualOS.Kernel

/-- `struct Bitmap`.  The buffer is the memory from its first byte on: what lies past
`size` belongs to someone else but can be read and written all the same. -/
structure Bitmap where
  buffer : Nat → BitVec 8
  size : Nat

/-- `BITMAP_SCALE`, which is `sizeof(size_t)`. -/
def bitmapScale : Nat := 8

def bitmapInitialize (memory : Nat → BitVec 8) (size : Nat) : Bitmap where
  buffer := fun i => if i < size then 0 else memory i
  size := size

def bitmapAdjustedSize (bitmap : Bitmap) : Nat :=
  bitmap.size * bitmapScale % 2 ^ 64

/-- `0b10000000 >> bit_index`. -/
def bitSelector (index : Nat) : BitVec 8 := 0b10000000#8 >>> (index % bitmapScale)

def bitmapGet (bitmap : Bitmap) (index : Nat) : Bool :=
  if index > bitmapAdjustedSize bitmap then false
  else bitmap.buffer (index / bitmapScale) &&& bitSelector index != 0

/-- Also returns the bitmap; an index out of range leaves it alone. -/
def bitmapSet (bitmap : Bitmap) (index : Nat) (value : Bool) : Bool × Bitmap :=
  if index > bitmapAdjustedSize bitmap then (false, bitmap)
  else
    let byte := bitmap.buffer (index / bitmapScale)
    let byte := if value then byte ||| bitSelector index else byte &&& ~~~bitSelector index
    (true, { bitmap with buffer := Function.update bitmap.buffer (index / bitmapScale) byte })

private theorem bitSelector_eq_twoPow (index : Nat) :
    bitSelector index = BitVec.twoPow 8 (7 - index % 8) := by
  have hmod : index % 8 < 8 := Nat.mod_lt _ (by decide)
  unfold bitSelector bitmapScale
  interval_cases index % 8 <;> rfl

private theorem and_bitSelector (byte : BitVec 8) (index : Nat) :
    (byte &&& bitSelector index != 0) = byte.getLsbD (7 - index % 8) := by
  rw [bitSelector_eq_twoPow, BitVec.and_twoPow]
  cases byte.getLsbD (7 - index % 8)
  · rfl
  · have hmod : index % 8 < 8 := Nat.mod_lt _ (by decide)
    interval_cases index % 8 <;> rfl

/-- Bit `i` of the buffer, most significant bit of each byte first. -/
def bufferBit (buffer : Nat → BitVec 8) (i : Nat) : Bool :=
  (buffer (i / 8)).getLsbD (7 - i % 8)

theorem bitmapGet_eq_bufferBit (bitmap : Bitmap) (index : Nat) :
    bitmapGet bitmap index =
      (decide (index ≤ bitmapAdjustedSize bitmap) && bufferBit bitmap.buffer index) := by
  unfold bitmapGet bufferBit
  by_cases h : index > bitmapAdjustedSize bitmap
  · simp [h, Nat.not_le.mpr h]
  · simp only [h, if_false, and_bitSelector, bitmapScale, Nat.not_lt.mp h, decide_true,
      Bool.true_and]

private theorem bufferBit_update (buffer : Nat → BitVec 8) (i j : Nat) (value : Bool) :
    bufferBit (Function.update buffer (i / 8)
      (if value then buffer (i / 8) ||| bitSelector i
        else buffer (i / 8) &&& ~~~bitSelector i)) j =
      if j = i then value else bufferBit buffer j := by
  have hi : i % 8 < 8 := Nat.mod_lt _ (by decide)
  have hj : j % 8 < 8 := Nat.mod_lt _ (by decide)
  unfold bufferBit
  rw [bitSelector_eq_twoPow]
  by_cases hbyte : j / 8 = i / 8
  · rw [hbyte, Function.update_self]
    by_cases hij : j = i
    · subst j
      cases value
      · simp [BitVec.getLsbD_twoPow]
      · simp [BitVec.getLsbD_twoPow]
        omega
    · have hbit : 7 - i % 8 ≠ 7 - j % 8 := by omega
      cases value
      · simp only [Bool.false_eq_true, if_false, if_neg hij, BitVec.getLsbD_and,
          BitVec.getLsbD_not, BitVec.getLsbD_twoPow, hbit]
        simp
        omega
      · simp [BitVec.getLsbD_twoPow, hij, hbit]
  · have hij : j ≠ i := fun h => hbyte (h ▸ rfl)
    rw [Function.update_of_ne hbyte, if_neg hij]

@[simp] theorem bitmapSet_size (bitmap : Bitmap) (index : Nat) (value : Bool) :
    (bitmapSet bitmap index value).2.size = bitmap.size := by
  unfold bitmapSet
  split <;> rfl

@[simp] theorem bitmapSet_adjustedSize (bitmap : Bitmap) (index : Nat) (value : Bool) :
    bitmapAdjustedSize (bitmapSet bitmap index value).2 = bitmapAdjustedSize bitmap := by
  simp [bitmapAdjustedSize]

theorem bitmapGet_out_of_range {bitmap : Bitmap} {index : Nat}
    (h : bitmapAdjustedSize bitmap < index) : bitmapGet bitmap index = false := by
  simp [bitmapGet, h]

theorem bitmapSet_fst (bitmap : Bitmap) (index : Nat) (value : Bool) :
    (bitmapSet bitmap index value).1 = decide (index ≤ bitmapAdjustedSize bitmap) := by
  unfold bitmapSet
  by_cases h : index > bitmapAdjustedSize bitmap
  · simp [h, Nat.not_le.mpr h]
  · simp [h, Nat.not_lt.mp h]

theorem bufferBit_bitmapSet (bitmap : Bitmap) (i j : Nat) (value : Bool) :
    bufferBit (bitmapSet bitmap i value).2.buffer j =
      if j = i ∧ i ≤ bitmapAdjustedSize bitmap then value else bufferBit bitmap.buffer j := by
  by_cases hi : i > bitmapAdjustedSize bitmap
  · have hset : bitmapSet bitmap i value = (false, bitmap) := by simp [bitmapSet, hi]
    rw [hset, if_neg (fun h => Nat.not_le.mpr hi h.2)]
  · have hset : (bitmapSet bitmap i value).2.buffer = Function.update bitmap.buffer (i / 8)
        (if value then bitmap.buffer (i / 8) ||| bitSelector i
          else bitmap.buffer (i / 8) &&& ~~~bitSelector i) := by
      simp [bitmapSet, hi, bitmapScale]
    rw [hset, bufferBit_update]
    simp [Nat.not_lt.mp hi]

theorem bitmapGet_bitmapSet (bitmap : Bitmap) (i j : Nat) (value : Bool) :
    bitmapGet (bitmapSet bitmap i value).2 j =
      if j = i ∧ i ≤ bitmapAdjustedSize bitmap then value else bitmapGet bitmap j := by
  rw [bitmapGet_eq_bufferBit, bitmapSet_adjustedSize, bufferBit_bitmapSet, bitmapGet_eq_bufferBit]
  by_cases hi : j = i ∧ i ≤ bitmapAdjustedSize bitmap
  · rw [if_pos hi, if_pos hi, hi.1]
    simp [hi.2]
  · rw [if_neg hi, if_neg hi]

theorem Bitmap.ext_bits {b b' : Bitmap} (hsize : b.size = b'.size)
    (hbits : ∀ i, bufferBit b.buffer i = bufferBit b'.buffer i) : b = b' := by
  have hbuffer : b.buffer = b'.buffer := by
    funext byte
    apply BitVec.eq_of_getLsbD_eq
    intro k hk
    have hbit := hbits (byte * 8 + (7 - k))
    rw [bufferBit, bufferBit, show (byte * 8 + (7 - k)) / 8 = byte by omega,
      show 7 - (byte * 8 + (7 - k)) % 8 = k by omega] at hbit
    exact hbit
  cases b
  cases b'
  rw [Bitmap.mk.injEq]
  exact ⟨hbuffer, hsize⟩

/-- A cleared buffer has no bit set below its size; the bit at the adjusted size itself is
whatever the memory behind the buffer holds. -/
theorem bitmapGet_bitmapInitialize {memory : Nat → BitVec 8} {size index : Nat}
    (h : index < bitmapScale * size) : bitmapGet (bitmapInitialize memory size) index = false := by
  have hbyte : index / 8 < size := by
    unfold bitmapScale at h
    omega
  rw [bitmapGet_eq_bufferBit]
  simp [bufferBit, bitmapInitialize, hbyte]

/-! ## Which bytes are accessed -/

/-- The bytes of the buffer that `bitmap_get` and `bitmap_set` read or write. -/
def bitmapAccessed (bitmap : Bitmap) (index : Nat) : List Nat :=
  if index > bitmapAdjustedSize bitmap then [] else [index / bitmapScale]

private theorem mem_bitmapAccessed {bitmap : Bitmap} {index byte : Nat} :
    byte ∈ bitmapAccessed bitmap index ↔ index ≤ bitmapAdjustedSize bitmap ∧ byte = index / 8 := by
  unfold bitmapAccessed
  by_cases h : index > bitmapAdjustedSize bitmap
  · simp [h, Nat.not_le.mpr h]
  · simp [h, Nat.not_lt.mp h, bitmapScale]

theorem bitmapGet_depends_iff (bitmap : Bitmap) (index byte : Nat) :
    byte ∈ bitmapAccessed bitmap index ↔
      ∃ value, bitmapGet { bitmap with buffer := Function.update bitmap.buffer byte value } index ≠
        bitmapGet bitmap index := by
  have hadjusted : ∀ buffer, bitmapAdjustedSize { bitmap with buffer } = bitmapAdjustedSize bitmap :=
    fun _ => rfl
  rw [mem_bitmapAccessed]
  constructor
  · rintro ⟨hindex, rfl⟩
    -- Turning all bits of the byte around turns the one that is looked at.
    refine ⟨~~~bitmap.buffer (index / 8), ?_⟩
    have hbit : 7 - index % 8 < 8 := by omega
    rw [bitmapGet_eq_bufferBit, bitmapGet_eq_bufferBit, hadjusted]
    simp [hindex, bufferBit, hbit]
  · rintro ⟨value, hne⟩
    by_contra hout
    apply hne
    rw [bitmapGet_eq_bufferBit, bitmapGet_eq_bufferBit, hadjusted]
    by_cases hindex : index ≤ bitmapAdjustedSize bitmap
    · have hbyte : index / 8 ≠ byte := fun h => hout ⟨hindex, h.symm⟩
      simp [bufferBit, Function.update_of_ne hbyte]
    · simp [hindex]

theorem bitmapSet_frame {bitmap : Bitmap} {index byte : Nat} (value : Bool)
    (h : byte ∉ bitmapAccessed bitmap index) :
    (bitmapSet bitmap index value).2.buffer byte = bitmap.buffer byte := by
  rw [mem_bitmapAccessed] at h
  unfold bitmapSet
  split
  · rfl
  · rename_i hindex
    have hbyte : byte ≠ index / 8 := fun hbyte => h ⟨Nat.not_lt.mp hindex, hbyte⟩
    exact Function.update_of_ne hbyte _ _

/-- Both functions stay inside the buffer and reject every other index, except for the index just
behind the last bit, which the comparison with the adjusted size lets pass. -/
theorem bitmap_stays_in_buffer_iff (bitmap : Bitmap) (index : BitVec 64) (value : Bool) :
    ((∀ byte ∈ bitmapAccessed bitmap index.toNat, byte < bitmap.size) ∧
      (bitmap.size ≤ index.toNat / 8 → bitmapGet bitmap index.toNat = false ∧
        bitmapSet bitmap index.toNat value = (false, bitmap))) ↔
      index.toNat ≠ 8 * bitmap.size := by
  have hlt : index.toNat < 2 ^ 64 := index.isLt
  have hadjusted : bitmapAdjustedSize bitmap = bitmap.size * 8 % 2 ^ 64 := rfl
  constructor
  · rintro ⟨haccessed, -⟩ hindex
    have hmem : bitmap.size ∈ bitmapAccessed bitmap index.toNat := by
      rw [mem_bitmapAccessed]
      omega
    exact absurd (haccessed _ hmem) (lt_irrefl _)
  · intro hindex
    constructor
    · intro byte hbyte
      rw [mem_bitmapAccessed] at hbyte
      omega
    · intro hout
      -- An index past the buffer is larger than the adjusted size, which has not wrapped around.
      have hrejected : index.toNat > bitmapAdjustedSize bitmap := by omega
      exact ⟨bitmapGet_out_of_range hrejected, by simp [bitmapSet, hrejected]⟩

/-- A bitmap of one byte, as for a machine of eight to fifteen pages, in memory that is all ones: the
ninth bit is read and written in the byte behind it. -/
theorem bitmap_leaves_buffer :
    let bitmap := bitmapInitialize (fun _ => 0xff) 1
    bitmapAccessed bitmap 8 = [1] ∧ bitmapGet bitmap 8 = true ∧
      (bitmapSet bitmap 8 false).1 = true ∧ (bitmapSet bitmap 8 false).2.buffer 1 = 0x7f := by
  decide

/-! ## The array of bits -/

/-- As long as the number of bits fits into `size_t`, the bitmap is an array of that many bits; what
is read at `j` needs no bound, since an index that is rejected is rejected before and after. -/
theorem bitmap_array_of_bits {bitmap : Bitmap} (hsize : bitmap.size < 2 ^ 61) {i : Nat}
    (hi : i < 8 * bitmap.size) (j : Nat) (value : Bool) :
    bitmapGet (bitmapSet bitmap i value).2 j = (if i = j then value else bitmapGet bitmap j) ∧
      (bitmapSet bitmap i value).1 = true := by
  have hadjusted : bitmapAdjustedSize bitmap = bitmap.size * 8 % 2 ^ 64 := rfl
  have hrange : i ≤ bitmapAdjustedSize bitmap := by omega
  constructor
  · rw [bitmapGet_bitmapSet]
    simp [hrange, eq_comm]
  · rw [bitmapSet_fst]
    simp [hrange]

theorem bitmap_array_of_bits_byte :
    bitmapGet (bitmapSet (bitmapInitialize (fun _ => 0) 1) 3 true).2 3 = true ∧
      (bitmapSet (bitmapInitialize (fun _ => 0) 1) 3 true).1 = true :=
  @bitmap_array_of_bits (bitmapInitialize (fun _ => 0) 1) (by decide) 3 (by decide) 3 true

/-- With `2 ^ 61` bytes the adjusted size wraps around to zero, and the second bit is rejected. -/
theorem bitmap_array_wraps :
    let bitmap : Bitmap := ⟨fun _ => 0, 2 ^ 61⟩
    1 < 8 * bitmap.size ∧ (bitmapSet bitmap 1 true).1 = false ∧
      bitmapGet (bitmapSet bitmap 1 true).2 1 = false := by
  decide

end VisualOS.Kernel
