import Mathlib.Tactic

/-!
# Bit locks

`atomic.asm` read sequentially: each routine runs to its end before anything else happens.
-/

namespace VisualOS.Kernel

/-- `lock bts`; true when the bit was clear. -/
def atomicLock (mutex : BitVec 64) (bit : Nat) : Bool × BitVec 64 :=
  (!mutex.getLsbD bit, mutex ||| BitVec.twoPow 64 bit)

/-- `btr`; the result is the negated carry flag, as in `atomicLock`. -/
def atomicUnlock (mutex : BitVec 64) (bit : Nat) : Bool × BitVec 64 :=
  (!mutex.getLsbD bit, mutex &&& ~~~BitVec.twoPow 64 bit)

/-- `none` when the bit is held: no one else runs, so the loop spins forever. -/
def atomicSpinlock (mutex : BitVec 64) (bit : Nat) : Option (BitVec 64) :=
  if mutex.getLsbD bit then none else some (mutex ||| BitVec.twoPow 64 bit)

/-- `lock xadd`: the value before, and the new one. -/
def atomicAccumulate (accumulator amount : BitVec 64) : BitVec 64 × BitVec 64 :=
  (accumulator, accumulator + amount)

theorem atomicSpinlock_free {mutex : BitVec 64} {bit : Nat} (h : mutex.getLsbD bit = false) :
    atomicSpinlock mutex bit = some (mutex ||| BitVec.twoPow 64 bit) := by
  simp [atomicSpinlock, h]

theorem atomicUnlock_taken {mutex : BitVec 64} {bit : Nat} (h : mutex.getLsbD bit = false) :
    (atomicUnlock (mutex ||| BitVec.twoPow 64 bit) bit).2 = mutex := by
  apply BitVec.eq_of_getLsbD_eq
  intro i hi
  simp only [atomicUnlock, BitVec.getLsbD_and, BitVec.getLsbD_or, BitVec.getLsbD_not,
    BitVec.getLsbD_twoPow, hi, decide_true, Bool.true_and]
  by_cases hib : bit = i
  · subst i
    rw [h]
    simp [hi]
  · simp [hib]

theorem atomicLock_held {mutex : BitVec 64} {bit : Nat} (h : mutex.getLsbD bit = true) :
    atomicLock mutex bit = (false, mutex) := by
  have hword : mutex ||| BitVec.twoPow 64 bit = mutex := by
    apply BitVec.eq_of_getLsbD_eq
    intro i hi
    rw [BitVec.getLsbD_or, BitVec.getLsbD_twoPow]
    by_cases hib : bit = i
    · subst i
      simp [h]
    · simp [hib]
  simp [atomicLock, h, hword]

theorem getLsbD_released_ne {mutex : BitVec 64} {bit other : Nat} (h : bit ≠ other) :
    (atomicUnlock mutex bit).2.getLsbD other = mutex.getLsbD other := by
  by_cases hother : other < 64
  · simp [atomicUnlock, hother, Ne.symm h]
  · rw [BitVec.getLsbD_of_ge _ _ (by omega), BitVec.getLsbD_of_ge _ _ (by omega)]

theorem getLsbD_taken_ne {mutex : BitVec 64} {bit other : Nat} (h : bit ≠ other) :
    (mutex ||| BitVec.twoPow 64 bit).getLsbD other = mutex.getLsbD other := by
  simp [BitVec.getLsbD_twoPow, h]

end VisualOS.Kernel
