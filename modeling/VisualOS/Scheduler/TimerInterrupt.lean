import Mathlib.Tactic
import VisualOS.Scheduler.TimerCode

/-!
# One interrupt of the timer

Machines on which `timer_handler` runs as code, any number of CPUs on one memory, against the model
of `Interrupts`.  The frames of the nodes and what each CPU runs are read off the memory; given that
`scheduler_next_task` does what `schedulerNextTask` does, an interrupt is one `timerHandler`, unless the
page map of the next task lacks the kernel.
-/

namespace VisualOS.Kernel

open Framework

/-! ## Machines -/

/-- Any number of CPUs on one memory.  Of `scheduler` everything but the frames counts. -/
structure TimerMachine (C : Type) where
  scheduler : Scheduler
  memory : BitVec 64 → BitVec 64
  core : C → Core
  cr3 : C → BitVec 64

section Machine

variable {C : Type} [DecidableEq C] (L : TimerLayout C) (env : TimerEnvironment)

/-- The machine when a CPU has left the handler with `iretq`. -/
def TimerMachine.leave (m : TimerMachine C) (cpu : C) (scheduler : Scheduler) (t : TimerCpu) :
    TimerMachine C where
  scheduler
  memory := t.cpu.memory
  core := Function.update m.core cpu (iretq t.cpu)
  cr3 := Function.update m.cr3 cpu t.cr3

/-- What a machine is to the scheduler. -/
def TimerMachine.smp (m : TimerMachine C) : Smp C where
  scheduler := L.view m.scheduler m.memory
  current cpu := L.pointer (m.memory (L.stackTimer cpu))
  registers cpu := (m.core cpu).contextFrame

end Machine

/-! ## What is kept -/

section Placement

variable {C : Type} (L : TimerLayout C)

/-- The stacks are aligned, so that the processor starts pushing at their tops, and apart. -/
structure TimerLayout.Sound : Prop where
  aligned : ∀ cpu, L.stackTimer cpu &&& ~~~0xf#64 = L.stackTimer cpu
  apart : ∀ cpu cpu', cpu ≠ cpu' → ∀ i < 22, ∀ j < 22,
    wordAt (L.stackTimer cpu - 160) i ≠ wordAt (L.stackTimer cpu' - 160) j

/-- The nodes of a scheduler, of 29 words each, overlap neither each other nor the stacks. -/
structure TimerLayout.Placed (s : Scheduler) : Prop where
  null : s.nodes .null = none
  pointer : ∀ p, (s.nodes p).isSome → L.pointer (L.address p) = p
  nodes : ∀ p q, (s.nodes p).isSome → (s.nodes q).isSome → p ≠ q → ∀ i < 29, ∀ j < 29,
    wordAt (L.address p) i ≠ wordAt (L.address q) j
  tops : ∀ p cpu, (s.nodes p).isSome → ∀ i < 29, ∀ k < 22,
    wordAt (L.address p) i ≠ wordAt (L.stackTimer cpu - 160) k

/-- Where the process of a task has its page map is a word of no node and of no stack. -/
def TimerLayout.ProcessesApart (s : Scheduler) (memory : BitVec 64 → BitVec 64) : Prop :=
  ∀ p, (s.nodes p).isSome → memory (L.address p + nodeTaskProcess) ≠ 0 →
    (∀ q, (s.nodes q).isSome → ∀ i < 29,
      memory (L.address p + nodeTaskProcess) + processPml4 ≠ wordAt (L.address q) i) ∧
    ∀ cpu, ∀ k < 22,
      memory (L.address p + nodeTaskProcess) + processPml4 ≠ wordAt (L.stackTimer cpu - 160) k

/-- Two memories with the same frames and processes in the nodes and the same `TimerStackTop` on each
CPU. -/
structure TimerLayout.Keeps (s : Scheduler) (memory memory' : BitVec 64 → BitVec 64) : Prop where
  frame : ∀ p, (s.nodes p).isSome → ∀ i < 20,
    memory' (wordAt (L.address p) i) = memory (wordAt (L.address p) i)
  process : ∀ p, (s.nodes p).isSome →
    memory' (L.address p + nodeTaskProcess) = memory (L.address p + nodeTaskProcess)
  top : ∀ cpu, memory' (L.stackTimer cpu) = memory (L.stackTimer cpu)
  kernelPml4 : ∀ cpu, memory' (wordAt (L.stackTimer cpu) 1) = memory (wordAt (L.stackTimer cpu) 1)

theorem TimerLayout.Keeps.refl (s : Scheduler) (memory : BitVec 64 → BitVec 64) :
    L.Keeps s memory memory :=
  ⟨fun _ _ _ _ => rfl, fun _ _ => rfl, fun _ => rfl, fun _ => rfl⟩

end Placement

/-! ## The interrupt -/

section Enter

variable {C : Type} {L : TimerLayout C} {env : TimerEnvironment}

end Enter

/-! ## The scheduler's answer -/

section Answer

variable {C : Type} {L : TimerLayout C} {s t : Scheduler} {rings : Rings} {p : NodePtr}
  {q : SchedulerQueueNumber} {memory memory' : BitVec 64 → BitVec 64}

end Answer

/-! ## One interrupt refines `timerHandler` -/

section Layout

variable {C : Type} {L : TimerLayout C} {s t : Scheduler}

theorem TimerLayout.Placed.mono (h : L.Placed s)
    (hnodes : ∀ p, (t.nodes p).isSome → (s.nodes p).isSome) : L.Placed t := by
  refine ⟨?_, fun p hp => h.pointer p (hnodes p hp),
    fun p q hp hq => h.nodes p q (hnodes p hp) (hnodes q hq),
    fun p cpu hp => h.tops p cpu (hnodes p hp)⟩
  by_contra hne
  have := hnodes .null (Option.isSome_iff_ne_none.mpr hne)
  simp [h.null] at this

variable {memory memory' : BitVec 64 → BitVec 64}

theorem TimerLayout.ProcessesApart.mono (h : L.ProcessesApart s memory)
    (hnodes : ∀ p, (t.nodes p).isSome → (s.nodes p).isSome)
    (hprocess : ∀ p, (t.nodes p).isSome →
      memory' (L.address p + nodeTaskProcess) = memory (L.address p + nodeTaskProcess)) :
    L.ProcessesApart t memory' := by
  intro p hp
  rw [hprocess p hp]
  intro hne
  obtain ⟨happart, hstacks⟩ := h p (hnodes p hp) hne
  exact ⟨fun q hq => happart q (hnodes q hq), hstacks⟩

end Layout

/-- The nodes, stacks and processes are apart, and every page map that is loaded has the kernel. -/
structure TimerMachine.Mapped {C : Type} (L : TimerLayout C) (env : TimerEnvironment)
    (m : TimerMachine C) : Prop where
  placed : L.Placed m.scheduler
  processes : L.ProcessesApart m.scheduler m.memory
  kernelPml4 : ∀ cpu, env.mapsKernel (m.memory (wordAt (L.stackTimer cpu) 1)) = true
  cr3 : ∀ cpu, env.mapsKernel (m.cr3 cpu) = true

section Refinement

variable {C : Type} {L : TimerLayout C} {env : TimerEnvironment}
  {m : TimerMachine C} {rings : Rings} {frames : NodePtr → SchedulerContextFrame}

namespace TimerAnswered

variable {cpu : C} {scheduler : Scheduler} {s : Cpu} {next : NodePtr} {node : SchedulerNode}

variable [DecidableEq C] {t : TimerCpu}

end TimerAnswered

variable [DecidableEq C]

end Refinement

end VisualOS.Kernel
