import Mathlib.Tactic
import VisualOS.Scheduler.Interrupts
import VisualOS.X86.InterruptStubs

/-!
# The code of the timer interrupt

`timer_handler` of `timer.asm`, instruction by instruction, on the registers and the memory of a CPU.
The context frames are words of memory here: the interrupt leaves one on the timer stack, the copy
loop moves it into the node of the task that ran, and the registers of the next task are popped from
its node.  Of the scheduler the code only knows the pointer that `scheduler_next_task` returns.
Addresses are those of the kernel, so a load of `cr3` with a page map that lacks it ends in a fault.
-/

namespace VisualOS.Kernel

open Framework

/-! ## Frames in memory -/

/-- The `k`-th quadword from an address on. -/
def wordAt (address : BitVec 64) (k : Nat) : BitVec 64 := address + BitVec.ofNat 64 (8 * k)

def frameAt (memory : BitVec 64 → BitVec 64) (address : BitVec 64) : SchedulerContextFrame where
  general i := memory (wordAt address i)
  rip := memory (wordAt address 15)
  cs := memory (wordAt address 16)
  rflags := memory (wordAt address 17)
  rsp := memory (wordAt address 18)
  ss := memory (wordAt address 19)

/-- The registers that an interrupt has to save. -/
def Core.contextFrame (s : Core) : SchedulerContextFrame where
  general i := s.cpu.registers (popReg.get i)
  rip := s.rip
  cs := s.cs
  rflags := s.rflags
  rsp := s.cpu.registers .rsp
  ss := s.ss

/-- Where things are: `s_idle_node`, and the `TimerStackTop` of each CPU.  A task's node is at the
address it is named by. -/
structure TimerLayout (C : Type) where
  idle : BitVec 64
  stackTimer : C → BitVec 64

namespace TimerLayout

variable {C : Type} (L : TimerLayout C)

def address : NodePtr → BitVec 64
  | .null => 0
  | .idle => L.idle
  | .task address => BitVec.ofNat 64 address

def pointer (address : BitVec 64) : NodePtr :=
  if address = 0 then .null else if address = L.idle then .idle else .task address.toNat

/-- The scheduler's nodes with the frames that are in memory. -/
def view (s : Scheduler) (memory : BitVec 64 → BitVec 64) : Scheduler :=
  { s with nodes := fun p => (s.nodes p).map fun node =>
      { node with contextFrame := frameAt memory (L.address p) } }

end TimerLayout

/-! ## `timer.asm` -/

/-- The two routines that are called, and the page maps in which the code, the stacks, the nodes and
the processes of the kernel are at their own addresses. -/
structure TimerEnvironment where
  nextTask : Scheduler → Cpu → Option (Scheduler × Cpu)
  localApicEoi : Cpu → Option Cpu
  mapsKernel : BitVec 64 → Bool

/-- The registers of a CPU that `timer_handler` changes. -/
structure TimerCpu where
  cpu : Cpu
  cr3 : BitVec 64
  ds : BitVec 16
  es : BitVec 16

/-- `SchedulerNode.context + SchedulerContext.task + Thread.process`. -/
def nodeTaskProcess : BitVec 64 := 192

/-- `Process.pml4`. -/
def processPml4 : BitVec 64 := 8

section Words

variable {memory memory' : BitVec 64 → BitVec 64} {address : BitVec 64}

private theorem wordAt_succ (address : BitVec 64) (k : Nat) :
    wordAt (address + 8) k = wordAt address (k + 1) := by
  simp only [wordAt]
  bv_omega

private theorem wordAt_zero (address : BitVec 64) :
    wordAt address 0 = address := BitVec.add_zero address

private theorem StackHolds.word {vs : List (BitVec 64)} (h : StackHolds memory address vs) {k : Nat}
    (hk : k < vs.length) : memory (wordAt address k) = vs.get ⟨k, hk⟩ := by
  induction vs generalizing address k with
  | nil => exact absurd hk (Nat.not_lt_zero k)
  | cons v vs ih =>
      cases k with
      | zero =>
          rw [wordAt_zero]
          exact h.1
      | succ k =>
          rw [← wordAt_succ]
          exact ih h.2 (by simpa using hk)

end Words

/-! ## The copy loop -/

section Copy

variable {s : Cpu}

end Copy

/-! ## The way out -/

section Leave

variable {env : TimerEnvironment} {cr3 : BitVec 64}

end Leave

end VisualOS.Kernel
