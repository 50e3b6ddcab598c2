import Mathlib.Tactic
import VisualOS.Framework.Transition

/-!
# The interval timer

`pit.c`: the divisor of the programmable interval timer and the ticks it counts.
-/

namespace VisualOS.Kernel

open Framework

def pitBaseFrequency : Nat := 1193182

def pitMaxDivisor : Nat := 65535

def pitDefaultDivisor : Nat := pitMaxDivisor

def pitPort : BitVec 16 := 0x40

/-- `s_ticks_since_boot` and `s_divisor`, and the port and byte of every `outb`. -/
structure Pit where
  ticksSinceBoot : BitVec 64
  divisor : BitVec 16
  outputs : List (BitVec 16 × BitVec 8)
  deriving DecidableEq

/-- The statics before `pit_init`. -/
def pitBoot : Pit := ⟨0, BitVec.ofNat 16 pitDefaultDivisor, []⟩

/-- `s_divisor` has 16 bits, so that the assignment comes before the comparison and cuts the
argument off.  `io_wait` between the two bytes writes to an unused port. -/
def pitSetDivisor (divisor : BitVec 64) (s : Pit) : Pit :=
  let stored : BitVec 16 := divisor.setWidth 16
  let stored := if stored.toNat > pitMaxDivisor then BitVec.ofNat 16 pitMaxDivisor else stored
  { s with
    divisor := stored
    outputs := s.outputs ++ [(pitPort, (stored &&& 0x00ff).setWidth 8),
      (pitPort, ((stored &&& 0xff00) >>> 8).setWidth 8)] }

def pitInit (s : Pit) : Pit := pitSetDivisor (BitVec.ofNat 64 pitDefaultDivisor) s

/-- `none` is a division by zero. -/
def pitGetFrequency (s : Pit) : Option Nat :=
  if s.divisor = 0 then none else some (pitBaseFrequency / s.divisor.toNat)

/-- `none` is a division by zero. -/
def pitSetFrequency (frequency : BitVec 64) (s : Pit) : Option Pit :=
  if frequency = 0 then none
  else some (pitSetDivisor (BitVec.ofNat 64 (pitBaseFrequency / frequency.toNat)) s)

def pitOnInterrupt (s : Pit) : Pit :=
  { s with ticksSinceBoot := s.ticksSinceBoot + s.divisor.setWidth 64 }

inductive PitCall
  | setDivisor (divisor : BitVec 64)
  | setFrequency (frequency : BitVec 64)

namespace PitCall

/-- The divisor that a call asks for. -/
def requested : PitCall → Nat
  | setDivisor divisor => divisor.toNat
  | setFrequency frequency => pitBaseFrequency / frequency.toNat

def Defined : PitCall → Prop
  | setDivisor _ => True
  | setFrequency frequency => 1 ≤ frequency.toNat

end PitCall

def PitStep (s : Pit) (call : PitCall) (t : Pit) : Prop :=
  match call with
  | .setDivisor divisor => t = pitSetDivisor divisor s
  | .setFrequency frequency => pitSetFrequency frequency s = some t

/-- A request limited to what the timer can count. -/
def pitLimited (requested : Nat) : Nat := max 1 (min requested pitMaxDivisor)

/-- The timer after a call. -/
structure PitLegal (call : PitCall) (t : Pit) : Prop where
  divisor : t.divisor.toNat = pitLimited call.requested
  frequency : pitGetFrequency t ≠ none
  advances : (pitOnInterrupt t).ticksSinceBoot ≠ t.ticksSinceBoot

section Runs

variable {s t : Pit} {call : PitCall} {calls : List PitCall}

/-- The comparison in `pit_set_divisor` never succeeds. -/
theorem pitSetDivisor_divisor (divisor : BitVec 64) (s : Pit) :
    (pitSetDivisor divisor s).divisor.toNat = divisor.toNat % 65536 := by
  have hlt : ¬(divisor.setWidth 16).toNat > pitMaxDivisor := by
    have := (divisor.setWidth 16).isLt
    unfold pitMaxDivisor
    omega
  simp only [pitSetDivisor, if_neg hlt]
  exact BitVec.toNat_setWidth 16 divisor

private theorem PitStep.divisor (h : PitStep s call t) :
    t.divisor.toNat = call.requested % 65536 := by
  cases call with
  | setDivisor divisor =>
      obtain rfl : t = pitSetDivisor divisor s := h
      exact pitSetDivisor_divisor divisor s
  | setFrequency frequency =>
      have hset : pitSetFrequency frequency s = some t := h
      unfold pitSetFrequency at hset
      split at hset
      · cases hset
      · obtain rfl := Option.some.inj hset
        -- The quotient is at most the base frequency, which fits into 64 bits.
        have hle : pitBaseFrequency / frequency.toNat < 2 ^ 64 :=
          (Nat.div_le_self _ _).trans_lt (by decide)
        rw [pitSetDivisor_divisor, BitVec.toNat_ofNat, Nat.mod_eq_of_lt hle]
        rfl

private theorem limited_iff (requested : Nat) :
    requested % 65536 = pitLimited requested ↔
      1 ≤ requested ∧ requested ≤ pitMaxDivisor ∨ requested % 65536 = pitMaxDivisor := by
  unfold pitLimited pitMaxDivisor
  omega

private theorem PitLegal.of_divisor (h : t.divisor.toNat = pitLimited call.requested) :
    PitLegal call t := by
  have hpos : 1 ≤ t.divisor.toNat := by
    rw [h]
    exact le_max_left _ _
  have hlt := t.divisor.isLt
  apply PitLegal.mk
  · exact h
  · have hne : t.divisor ≠ 0 := by
      intro hzero
      rw [hzero] at hpos
      exact absurd hpos (by decide)
    rw [pitGetFrequency, if_neg hne]
    exact Option.some_ne_none _
  · intro hsame
    simp only [pitOnInterrupt] at hsame
    have hzero : t.divisor.setWidth 64 = 0 := by simpa using hsame
    have hnat : t.divisor.toNat % 2 ^ 64 = 0 := by
      simpa using congrArg BitVec.toNat hzero
    omega

private theorem PitStep.legal_iff (h : PitStep s call t) :
    PitLegal call t ↔
      1 ≤ call.requested ∧ call.requested ≤ pitMaxDivisor ∨
        call.requested % 65536 = pitMaxDivisor := by
  rw [← limited_iff, ← h.divisor]
  exact ⟨PitLegal.divisor, .of_divisor⟩

private theorem exists_pitStep (h : call.Defined) (s : Pit) : ∃ t, PitStep s call t := by
  cases call with
  | setDivisor divisor => exact ⟨_, rfl⟩
  | setFrequency frequency =>
      have hne : frequency ≠ 0 := by
        rintro rfl
        exact absurd h (by simp [PitCall.Defined])
      exact ⟨_, if_neg hne⟩

private theorem exists_pitRun (h : ∀ call ∈ calls, call.Defined) (s : Pit) :
    ∃ t, Run PitStep s calls t := by
  induction calls generalizing s with
  | nil => exact ⟨s, .nil s⟩
  | cons call calls ih =>
      rw [List.forall_mem_cons] at h
      obtain ⟨t, hstep⟩ := exists_pitStep h.1 s
      exact Run.exists_cons hstep (ih h.2 t)

/-- The calls return, and the divisor is legal after each of them, if and only if every request was
in range or happens to be cut off to the largest divisor. -/
theorem pit_divisor_legal_iff (s : Pit) (h : ∀ call ∈ calls, call.Defined) :
    (∃ t, Run PitStep s calls t) ∧
      ((∀ before call after t, calls = before ++ call :: after →
          Run PitStep s (before ++ [call]) t → PitLegal call t) ↔
        ∀ call ∈ calls, 1 ≤ call.requested ∧ call.requested ≤ pitMaxDivisor ∨
          call.requested % 65536 = pitMaxDivisor) := by
  refine ⟨exists_pitRun h s, ?_, ?_⟩
  · intro hlegal call hcall
    obtain ⟨before, after, rfl⟩ := List.append_of_mem hcall
    -- The calls up to this one return, so that there is a state to look at.
    obtain ⟨u, hbefore⟩ := exists_pitRun (fun c hc => h c (List.mem_append_left _ hc)) s
    obtain ⟨t, hstep⟩ := exists_pitStep (h call hcall) u
    have hrun : Run PitStep s (before ++ [call]) t := hbefore.append (.cons hstep (.nil t))
    exact hstep.legal_iff.mp (hlegal before call after t rfl hrun)
  · intro hrequests before call after t hcalls hrun
    obtain ⟨u, -, hlast⟩ := Run.split hrun
    cases hlast with
    | cons hstep hnil =>
        cases hnil
        apply hstep.legal_iff.mpr
        apply hrequests
        rw [hcalls]
        exact List.mem_append_right _ List.mem_cons_self

end Runs

/-- A hundred interrupts in a second, then the slowest rate. -/
theorem pit_divisor_legal_hundred :
    ∃ t, Run PitStep (pitInit pitBoot) [.setFrequency 100, .setDivisor 65535] t ∧
      PitLegal (.setDivisor 65535) t := by
  obtain ⟨⟨t, ht⟩, hlegal⟩ := @pit_divisor_legal_iff [.setFrequency 100, .setDivisor 65535]
    (pitInit pitBoot) (by simp [PitCall.Defined])
  exact ⟨t, ht, hlegal.mpr (by decide) [.setFrequency 100] _ [] t rfl ht⟩

/-- One interrupt in a second asks for 1193182 and gets what is left of it in 16 bits; 65536 gives
zero, with which the ticks stand still. -/
theorem pit_divisor_cut_off :
    (pitSetFrequency 1 (pitInit pitBoot)).map (fun t => t.divisor.toNat) = some 13534 ∧
      pitLimited (PitCall.setFrequency 1).requested = 65535 ∧
      (pitSetDivisor 65536 (pitInit pitBoot)).divisor = 0 ∧
      pitGetFrequency (pitSetDivisor 65536 (pitInit pitBoot)) = none ∧
      pitOnInterrupt (pitSetDivisor 65536 (pitInit pitBoot)) =
        pitSetDivisor 65536 (pitInit pitBoot) := by
  decide

end VisualOS.Kernel
