import Mathlib.Tactic
import VisualOS.X86.Machine

/-!
# Saving registers on the stack

A list of registers pushed one after the other, and popped in the opposite order.
-/

namespace VisualOS.Kernel

namespace Cpu

def pop (s : Cpu) (r : Register) : Cpu :=
  (s.set .rsp (s.registers .rsp + 8)).set r (s.memory (s.registers .rsp))

def pushAll (s : Cpu) (rs : List Register) : Cpu := rs.foldl (fun s r => s.push (s.registers r)) s

def popAll (s : Cpu) (rs : List Register) : Cpu := rs.foldl pop s

@[simp] theorem push_rsp (s : Cpu) (value : BitVec 64) :
    (s.push value).registers .rsp = s.registers .rsp - 8 := by
  simp [push, store, set]

end Cpu

/-- The quadwords from an address on. -/
def StackHolds (memory : BitVec 64 → BitVec 64) : BitVec 64 → List (BitVec 64) → Prop
  | _, [] => True
  | address, v :: vs => memory address = v ∧ StackHolds memory (address + 8) vs

section StackHolds

variable {memory memory' : BitVec 64 → BitVec 64} {address : BitVec 64} {vs : List (BitVec 64)}

theorem StackHolds.congr (h : StackHolds memory address vs)
    (heq : ∀ k < vs.length, memory' (address + BitVec.ofNat 64 (8 * k)) =
      memory (address + BitVec.ofNat 64 (8 * k))) : StackHolds memory' address vs := by
  induction vs generalizing address with
  | nil => trivial
  | cons v vs ih =>
      apply And.intro
      · have := heq 0 (by simp)
        rw [Nat.mul_zero, BitVec.add_zero] at this
        rw [this, h.1]
      · apply ih h.2
        intro k hk
        have hnext : address + 8 + BitVec.ofNat 64 (8 * k) =
            address + BitVec.ofNat 64 (8 * (k + 1)) := by bv_omega
        rw [hnext]
        exact heq (k + 1) (by simpa using hk)

theorem StackHolds.push {v : BitVec 64} (h : StackHolds memory address vs)
    (hlen : vs.length < 2 ^ 32) :
    StackHolds (Function.update memory (address - 8) v) (address - 8) (v :: vs) := by
  apply And.intro
  · exact Function.update_self _ _ _
  · rw [BitVec.sub_add_cancel]
    apply h.congr
    intro k hk
    apply Function.update_of_ne
    bv_omega

end StackHolds

/-! ## Pushing a list of registers -/

section Push

variable {s : Cpu} {rs : List Register}

theorem pushAll_gs (s : Cpu) (rs : List Register) :
    (s.pushAll rs).gsBase = s.gsBase ∧ (s.pushAll rs).kernelGsBase = s.kernelGsBase := by
  induction rs generalizing s with
  | nil => exact ⟨rfl, rfl⟩
  | cons r rs ih => exact ih _

theorem pushAll_rsp :
    (s.pushAll rs).registers .rsp = s.registers .rsp - BitVec.ofNat 64 (8 * rs.length) := by
  induction rs generalizing s with
  | nil => exact (BitVec.sub_zero _).symm
  | cons r rs ih =>
      change ((s.push (s.registers r)).pushAll rs).registers .rsp = _
      rw [ih, Cpu.push_rsp, List.length_cons]
      bv_omega

theorem pushAll_memory {a : BitVec 64}
    (ha : ∀ k, 1 ≤ k → k ≤ rs.length → a ≠ s.registers .rsp - BitVec.ofNat 64 (8 * k)) :
    (s.pushAll rs).memory a = s.memory a := by
  induction rs generalizing s with
  | nil => rfl
  | cons r rs ih =>
      have hfirst : (s.push (s.registers r)).memory a = s.memory a :=
        Function.update_of_ne (ha 1 le_rfl (by simp)) _ _
      change ((s.push (s.registers r)).pushAll rs).memory a = _
      rw [ih, hfirst]
      intro k hk hle
      have := ha (k + 1) (by omega) (by simpa using hle)
      rw [Cpu.push_rsp]
      bv_omega

theorem pushAll_holds {vs : List (BitVec 64)} (hrsp : .rsp ∉ rs)
    (hlen : rs.length + vs.length < 2 ^ 32)
    (h : StackHolds s.memory (s.registers .rsp) vs) :
    StackHolds (s.pushAll rs).memory ((s.pushAll rs).registers .rsp)
      ((rs.map s.registers).reverse ++ vs) := by
  induction rs generalizing s vs with
  | nil => exact h
  | cons r rs ih =>
      rw [List.mem_cons, not_or] at hrsp
      rw [List.length_cons] at hlen
      -- The registers that are still to be pushed are unchanged.
      have hrest : rs.map (s.push (s.registers r)).registers = rs.map s.registers := by
        apply List.map_congr_left
        intro r' hr'
        exact s.set_other _ (fun h => hrsp.2 (h ▸ hr'))
      have hpushed : StackHolds (s.push (s.registers r)).memory
          ((s.push (s.registers r)).registers .rsp) (s.registers r :: vs) := by
        rw [Cpu.push_rsp]
        exact h.push (by omega)
      have := ih hrsp.2 (by rw [List.length_cons]; omega) hpushed
      rw [hrest] at this
      simpa [Cpu.pushAll] using this

end Push

/-! ## Popping a list of registers -/

section Pop

variable {s : Cpu} {rs : List Register}

theorem popAll_memory (s : Cpu) (rs : List Register) : (s.popAll rs).memory = s.memory := by
  induction rs generalizing s with
  | nil => rfl
  | cons r rs ih => exact ih _

theorem popAll_gs (s : Cpu) (rs : List Register) :
    (s.popAll rs).gsBase = s.gsBase ∧ (s.popAll rs).kernelGsBase = s.kernelGsBase := by
  induction rs generalizing s with
  | nil => exact ⟨rfl, rfl⟩
  | cons r rs ih => exact ih _

theorem popAll_register {r : Register} (hr : r ≠ .rsp) (hmem : r ∉ rs) :
    (s.popAll rs).registers r = s.registers r := by
  induction rs generalizing s with
  | nil => rfl
  | cons r' rs ih =>
      rw [List.mem_cons, not_or] at hmem
      have hpop : (s.pop r').registers r = s.registers r := by
        rw [Cpu.pop, Cpu.set_other _ _ hmem.1, Cpu.set_other _ _ hr]
      exact (ih hmem.2).trans hpop

theorem popAll_rsp (hrsp : .rsp ∉ rs) :
    (s.popAll rs).registers .rsp = s.registers .rsp + BitVec.ofNat 64 (8 * rs.length) := by
  induction rs generalizing s with
  | nil => exact (BitVec.add_zero _).symm
  | cons r rs ih =>
      rw [List.mem_cons, not_or] at hrsp
      have hpop : (s.pop r).registers .rsp = s.registers .rsp + 8 := by
        rw [Cpu.pop, Cpu.set_other _ _ hrsp.1, Cpu.set_same]
      change ((s.pop r).popAll rs).registers .rsp = _
      rw [ih hrsp.2, hpop, List.length_cons]
      bv_omega

theorem popAll_holds {values vs : List (BitVec 64)} (hlen : values.length = rs.length)
    (hrsp : .rsp ∉ rs) (hnodup : rs.Nodup)
    (h : StackHolds s.memory (s.registers .rsp) (values ++ vs)) :
    rs.map (s.popAll rs).registers = values ∧
      StackHolds s.memory ((s.popAll rs).registers .rsp) vs := by
  induction rs generalizing s values with
  | nil =>
      obtain rfl := List.length_eq_zero_iff.mp hlen
      exact ⟨rfl, h⟩
  | cons r rs ih =>
      cases values with
      | nil => simp at hlen
      | cons v values =>
          rw [List.mem_cons, not_or] at hrsp
          rw [List.nodup_cons] at hnodup
          have hrsp' : (s.pop r).registers .rsp = s.registers .rsp + 8 := by
            rw [Cpu.pop, Cpu.set_other _ _ hrsp.1, Cpu.set_same]
          have hr : (s.pop r).registers r = v := by
            rw [Cpu.pop, Cpu.set_same, h.1]
          have hstack : StackHolds (s.pop r).memory ((s.pop r).registers .rsp) (values ++ vs) := by
            rw [hrsp']
            exact h.2
          obtain ⟨hvalues, hrest⟩ := ih (by simpa using hlen) hrsp.2 hnodup.2 hstack
          refine ⟨?_, hrest⟩
          have hkept : ((s.pop r).popAll rs).registers r = v :=
            (popAll_register (Ne.symm hrsp.1) hnodup.1).trans hr
          exact congrArg₂ List.cons hkept hvalues

end Pop

end VisualOS.Kernel
