import VisualOS.Framework.Transition

/-!
# Straight-line x86-64 code

The registers, the two GS bases and memory, which is read and written in quadwords at the
addresses the code uses.  Calls out of the code are steps of their own, whose effect the
caller of this module describes.
-/

namespace VisualOS.Kernel

open Framework

inductive Register
  | rax | rbx | rcx | rdx | rsi | rdi | rbp | rsp
  | r8 | r9 | r10 | r11 | r12 | r13 | r14 | r15
  deriving DecidableEq, Repr

structure Cpu where
  registers : Register → BitVec 64
  gsBase : BitVec 64
  kernelGsBase : BitVec 64
  memory : BitVec 64 → BitVec 64

/-- `γ` names the routines that are called. -/
inductive Instruction (γ : Type)
  | swapgs
  | mov (destination source : Register)
  | movFromGs (destination : Register) (offset : BitVec 64)
  | movToGs (offset : BitVec 64) (source : Register)
  | push (source : Register)
  | call (routine : γ)

namespace Cpu

def set (s : Cpu) (r : Register) (value : BitVec 64) : Cpu :=
  { s with registers := Function.update s.registers r value }

def store (s : Cpu) (address value : BitVec 64) : Cpu :=
  { s with memory := Function.update s.memory address value }

def push (s : Cpu) (value : BitVec 64) : Cpu :=
  let rsp := s.registers .rsp - 8
  (s.set .rsp rsp).store rsp value

@[simp] theorem set_same (s : Cpu) (r : Register) (value : BitVec 64) :
    (s.set r value).registers r = value := by
  simp [set]

theorem set_other (s : Cpu) {r r' : Register} (value : BitVec 64) (h : r' ≠ r) :
    (s.set r value).registers r' = s.registers r' := by
  simp [set, h]

end Cpu

section Steps

variable {γ : Type} (calls : γ → Cpu → Cpu → Prop)

/-- One instruction; `calls` says what a routine may do between its call and its return. -/
inductive CpuStep : Cpu → Instruction γ → Cpu → Prop
  | swapgs (s : Cpu) :
      CpuStep s .swapgs { s with gsBase := s.kernelGsBase, kernelGsBase := s.gsBase }
  | mov (s : Cpu) (destination source : Register) :
      CpuStep s (.mov destination source) (s.set destination (s.registers source))
  | movFromGs (s : Cpu) (destination : Register) (offset : BitVec 64) :
      CpuStep s (.movFromGs destination offset) (s.set destination (s.memory (s.gsBase + offset)))
  | movToGs (s : Cpu) (offset : BitVec 64) (source : Register) :
      CpuStep s (.movToGs offset source) (s.store (s.gsBase + offset) (s.registers source))
  | push (s : Cpu) (source : Register) :
      CpuStep s (.push source) (s.push (s.registers source))
  | call {s t : Cpu} {routine : γ} : calls routine s t → CpuStep s (.call routine) t

/-- The registers an instruction may change; `changed` says so for the routines. -/
def Instruction.writes (changed : γ → List Register) : Instruction γ → List Register
  | .mov destination _ => [destination]
  | .movFromGs destination _ => [destination]
  | .push _ => [.rsp]
  | .call routine => changed routine
  | _ => []

variable {calls} {changed : γ → List Register} {s t : Cpu} {r : Register}

/-! Each instruction but a call leads to one state. -/

theorem cpuStep_swapgs_iff : CpuStep calls s .swapgs t ↔
    t = { s with gsBase := s.kernelGsBase, kernelGsBase := s.gsBase } := by
  constructor
  · intro h
    cases h
    rfl
  · rintro rfl
    exact .swapgs s

theorem cpuStep_mov_iff {destination source : Register} :
    CpuStep calls s (.mov destination source) t ↔ t = s.set destination (s.registers source) := by
  constructor
  · intro h
    cases h
    rfl
  · rintro rfl
    exact .mov s destination source

theorem cpuStep_movFromGs_iff {destination : Register} {offset : BitVec 64} :
    CpuStep calls s (.movFromGs destination offset) t ↔
      t = s.set destination (s.memory (s.gsBase + offset)) := by
  constructor
  · intro h
    cases h
    rfl
  · rintro rfl
    exact .movFromGs s destination offset

theorem cpuStep_movToGs_iff {offset : BitVec 64} {source : Register} :
    CpuStep calls s (.movToGs offset source) t ↔
      t = s.store (s.gsBase + offset) (s.registers source) := by
  constructor
  · intro h
    cases h
    rfl
  · rintro rfl
    exact .movToGs s offset source

theorem cpuStep_call_iff {routine : γ} : CpuStep calls s (.call routine) t ↔ calls routine s t := by
  constructor
  · intro h
    cases h with
    | call hcall => exact hcall
  · exact .call

private theorem CpuStep.frame {i : Instruction γ}
    (hcalls : ∀ routine s t, calls routine s t → ∀ r ∉ changed routine,
      t.registers r = s.registers r)
    (h : CpuStep calls s i t) (hr : r ∉ i.writes changed) : t.registers r = s.registers r := by
  cases h with
  | swapgs => rfl
  | mov destination source => exact s.set_other _ (by simpa [Instruction.writes] using hr)
  | movFromGs destination offset => exact s.set_other _ (by simpa [Instruction.writes] using hr)
  | movToGs offset source => rfl
  | push source => exact s.set_other _ (by simpa [Instruction.writes] using hr)
  | call hcall => exact hcalls _ _ _ hcall r hr

theorem cpuRun_frame {block : List (Instruction γ)}
    (hcalls : ∀ routine s t, calls routine s t → ∀ r ∉ changed routine,
      t.registers r = s.registers r)
    (h : Run (CpuStep calls) s block t) (hr : ∀ i ∈ block, r ∉ i.writes changed) :
    t.registers r = s.registers r := by
  induction h with
  | nil => rfl
  | @cons s t u i block hstep _ ih =>
      rw [ih (fun j hj => hr j (List.mem_cons_of_mem i hj))]
      exact hstep.frame hcalls (hr i List.mem_cons_self)

/-- A block without calls does the same whatever the routines do. -/
theorem cpuRun_straight {calls' : γ → Cpu → Cpu → Prop} {block : List (Instruction γ)}
    (h : Run (CpuStep calls) s block t) (hblock : ∀ i ∈ block, ∀ routine, i ≠ .call routine) :
    Run (CpuStep calls') s block t := by
  induction h with
  | nil => exact .nil _
  | @cons s t u i block hstep _ ih =>
      rw [List.forall_mem_cons] at hblock
      have hstep' : CpuStep calls' s i t := by
        cases hstep with
        | swapgs => exact .swapgs s
        | mov destination source => exact .mov s destination source
        | movFromGs destination offset => exact .movFromGs s destination offset
        | movToGs offset source => exact .movToGs s offset source
        | push source => exact .push s source
        | call _ => exact absurd rfl (hblock.1 _)
      exact .cons hstep' (ih hblock.2)

theorem exists_cpuRun (hcalls : ∀ routine s, ∃ t, calls routine s t) (s : Cpu)
    (block : List (Instruction γ)) : ∃ t, Run (CpuStep calls) s block t := by
  induction block generalizing s with
  | nil => exact ⟨s, .nil s⟩
  | cons i block ih =>
      have hstep : ∃ t, CpuStep calls s i t := by
        cases i with
        | swapgs => exact ⟨_, .swapgs s⟩
        | mov destination source => exact ⟨_, .mov s destination source⟩
        | movFromGs destination offset => exact ⟨_, .movFromGs s destination offset⟩
        | movToGs offset source => exact ⟨_, .movToGs s offset source⟩
        | push source => exact ⟨_, .push s source⟩
        | call routine =>
            obtain ⟨t, ht⟩ := hcalls routine s
            exact ⟨t, .call ht⟩
      obtain ⟨t, ht⟩ := hstep
      obtain ⟨u, hu⟩ := ih t
      exact ⟨u, .cons ht hu⟩

end Steps

end VisualOS.Kernel
