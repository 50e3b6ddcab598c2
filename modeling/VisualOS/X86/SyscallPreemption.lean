import Mathlib.Tactic
import VisualOS.X86.SyscallEntry

/-!
# System calls under the timer

Tasks that share one CPU, the system calls they make, and the switch that `timer_handler` of
`timer.asm` makes between them.  `syscall_enable` leaves the flag mask alone, so that interrupts stay
enabled in a system call; what a system call keeps belongs to the CPU and not to the task, and the
timer overwrites the GS base through which it is found.
-/

namespace VisualOS.Kernel

open Framework

/-- The registers that `syscall` works by. -/
structure SyscallMsrs where
  lstar : BitVec 64
  efer : BitVec 64
  star : BitVec 64
  fmask : BitVec 64

def syscallEnable (syscallEntry : BitVec 64) (m : SyscallMsrs) : SyscallMsrs :=
  { m with
    lstar := syscallEntry
    efer := m.efer ||| 1
    star := 0x00180008#32 ++ m.star.setWidth 32 }

section Model

variable {ι : Type} (L : SyscallLayout ι)

/-- The context frame of a task that is not running, with where in `syscall_entry` it is. -/
structure TaskFrame where
  registers : Register → BitVec 64
  rest : List SyscallInstruction
  interruptFlag : Bool

/-- `rest` is what the running task still has to execute of `syscall_entry`, and empty in user
code; `entered` remembers the registers with which each task came to `syscall_entry` last. -/
structure TaskCpu (ι : Type) where
  cpu : Cpu
  rest : List SyscallInstruction
  interruptFlag : Bool
  current : ι
  frames : ι → TaskFrame
  entered : ι → Register → BitVec 64

inductive TaskAction (ι : Type)
  | user
  | syscall
  | execute
  | sysret
  | tick (next : Option ι)

variable [DecidableEq ι]

/-- The frame of the running task goes to its node, the next one's is loaded from its own, and
the GS base is set to the node. -/
def TaskCpu.switch (s : TaskCpu ι) (next : ι) : TaskCpu ι :=
  let frames := Function.update s.frames s.current ⟨s.cpu.registers, s.rest, s.interruptFlag⟩
  { s with
    cpu := { s.cpu with registers := (frames next).registers, gsBase := L.node next }
    rest := (frames next).rest
    interruptFlag := (frames next).interruptFlag
    current := next
    frames }

variable (m : SyscallMsrs)

inductive TaskStep : TaskCpu ι → TaskAction ι → TaskCpu ι → Prop
  /-- User code may do what it likes with its registers and its memory. -/
  | user {s : TaskCpu ι} {t : Cpu} : s.rest = [] → t.gsBase = s.cpu.gsBase →
      t.kernelGsBase = s.cpu.kernelGsBase → (∀ a, L.Private a → t.memory a = s.cpu.memory a) →
      TaskStep s .user { s with cpu := t }
  /-- `syscall` saves the address to return to and the flags, and masks the flags. -/
  | syscall {s : TaskCpu ι} (rip rflags : BitVec 64) : s.rest = [] →
      rflags.getLsbD 9 = s.interruptFlag →
      TaskStep s .syscall
        { s with
          cpu := (s.cpu.set .rcx rip).set .r11 rflags
          rest := syscallProgram
          interruptFlag := s.interruptFlag && !m.fmask.getLsbD 9
          entered := Function.update s.entered s.current
            ((s.cpu.set .rcx rip).set .r11 rflags).registers }
  | execute {s : TaskCpu ι} {t : Cpu} {i : SyscallInstruction} {rest : List SyscallInstruction} :
      s.rest = i :: rest → i ≠ .checkExit → EntryStep L s.cpu i t →
      TaskStep s .execute { s with cpu := t, rest }
  | checkExit {s : TaskCpu ι} {t : Cpu} {rest : List SyscallInstruction} :
      s.rest = .checkExit :: rest → EntryStep L s.cpu .checkExit t →
      TaskStep s .execute
        { s with cpu := t, rest := if t.registers .rbx = L.address .exit then kernelExit else rest }
  | sysret {s : TaskCpu ι} {rest : List SyscallInstruction} : s.rest = .sysret :: rest →
      TaskStep s .sysret
        { s with rest := [], interruptFlag := (s.cpu.registers .r11).getLsbD 9 }
  /-- `scheduler_next_task` returns no task. -/
  | tick {s : TaskCpu ι} : s.interruptFlag = true → TaskStep s (.tick none) s
  | switch {s : TaskCpu ι} (next : ι) : s.interruptFlag = true →
      TaskStep s (.tick (some next)) (s.switch L next)

end Model

/-! ## Runs of the tasks -/

section Runs

variable {ι : Type} {L : SyscallLayout ι}

/-- The timer switches only from a task in user code or one that has exited. -/
def SwitchesOutside (s : TaskCpu ι) : TaskAction ι → Prop
  | .tick (some _) => s.rest = [] ∨ s.rest = [.hlt]
  | _ => True

instance (s : TaskCpu ι) (a : TaskAction ι) : Decidable (SwitchesOutside s a) :=
  match a with
  | .tick (some _) => inferInstanceAs (Decidable (_ ∨ _))
  | .tick none => .isTrue trivial
  | .user => .isTrue trivial
  | .syscall => .isTrue trivial
  | .execute => .isTrue trivial
  | .sysret => .isTrue trivial

/-- A CPU whose running task is outside, or has come from user code without a switch. -/
inductive TaskPhase (L : SyscallLayout ι) (s : TaskCpu ι) : Prop
  | outside (hrest : s.rest = [] ∨ s.rest = [.hlt]) (hready : Ready L s.cpu)
  | inside {start : Cpu} {executed tail : List SyscallInstruction}
      (hready : Ready L start) (hnode : start.gsBase = L.node s.current)
      (hentered : s.entered s.current = start.registers)
      (htail : tail = sysretExit ∨ tail = kernelExit)
      (hpath : syscallPath tail = executed ++ s.rest)
      (hrun : Run (EntryStep L) start executed s.cpu)

structure TasksGood (L : SyscallLayout ι) (s : TaskCpu ι) : Prop where
  phase : TaskPhase L s
  gsBase : s.rest = [] → s.cpu.gsBase = L.node s.current
  frames : ∀ i ≠ s.current, (s.frames i).rest = [] ∨ (s.frames i).rest = [.hlt]

namespace TasksGood

variable {s t : TaskCpu ι}

private theorem ready (h : TasksGood L s) (hrest : s.rest = [] ∨ s.rest = [.hlt]) :
    Ready L s.cpu := by
  cases h.phase with
  | outside _ hready => exact hready
  | inside hready hnode _ htail hpath hrun =>
      rcases hrest with hrest | hrest
      · rw [hrest, List.append_nil] at hpath
        exact absurd (hpath ▸ hrun) (not_run_path htail)
      · rw [hrest] at hpath
        rw [syscallPath_hlt htail hpath] at hrun
        exact run_kernelExit hready (hnode ▸ L.node_apart s.current) hrun

private theorem user {c : Cpu} (h : TasksGood L s) (hrest : s.rest = [])
    (hgs : c.gsBase = s.cpu.gsBase) (hkernel : c.kernelGsBase = s.cpu.kernelGsBase)
    (hmemory : ∀ a, L.Private a → c.memory a = s.cpu.memory a) :
    TasksGood L { s with cpu := c } := by
  have hready := h.ready (.inl hrest)
  apply TasksGood.mk
  · exact .outside (.inl hrest) ⟨hkernel.trans hready.kernelGsBase,
      (hmemory _ SyscallLayout.private_stackKernel).trans hready.stackKernel⟩
  · intro _
    exact hgs.trans (h.gsBase hrest)
  · exact h.frames

private theorem execute {c : Cpu} {i : SyscallInstruction} {rest : List SyscallInstruction}
    (h : TasksGood L s) (hrest : s.rest = i :: rest) (hstep : EntryStep L s.cpu i c) :
    TasksGood L { s with cpu := c, rest } := by
  cases h.phase with
  | outside houtside _ =>
      -- A task that has exited does not go on.
      rw [hrest] at houtside
      rcases houtside with hnil | hhlt
      · exact absurd hnil (List.cons_ne_nil _ _)
      · obtain rfl := (List.cons.inj hhlt).1
        cases hstep
  | @inside start executed tail hready hnode hentered htail hpath hrun =>
      have hrun' : Run (EntryStep L) start (executed ++ [i]) c := hrun.append (.cons hstep (.nil c))
      have hpath' : syscallPath tail = executed ++ [i] ++ rest := by
        rw [hpath, hrest, List.append_assoc, List.singleton_append]
      apply TasksGood.mk
      · exact .inside hready hnode hentered htail hpath' hrun'
      · intro hnil
        dsimp only at hnil
        rw [hnil, List.append_nil] at hpath'
        exact absurd (hpath' ▸ hrun') (not_run_path htail)
      · exact h.frames

private theorem checkExit {c : Cpu} {rest next : List SyscallInstruction} (h : TasksGood L s)
    (hrest : s.rest = .checkExit :: rest) (hstep : EntryStep L s.cpu .checkExit c)
    (hnext : next = kernelExit ∨ next = rest) : TasksGood L { s with cpu := c, rest := next } := by
  cases h.phase with
  | outside houtside _ => rcases houtside with hnil | hhlt <;> simp_all
  | @inside start executed tail hready hnode hentered htail hpath hrun =>
      rw [hrest] at hpath
      obtain ⟨rfl, rfl⟩ := syscallPath_checkExit htail hpath
      have hrun' : Run (EntryStep L) start (syscallHead ++ [.checkExit]) c :=
        hrun.append (.cons hstep (.nil c))
      have hnext' : next = sysretExit ∨ next = kernelExit := by
        rcases hnext with rfl | rfl
        · exact .inr rfl
        · exact htail
      apply TasksGood.mk
      · have hpath' : syscallPath next = syscallHead ++ [.checkExit] ++ next := by
          rw [syscallPath, List.append_assoc, List.singleton_append]
        exact .inside hready hnode hentered hnext' hpath' hrun'
      · intro hnil
        rcases hnext' with rfl | rfl <;> exact absurd hnil (by simp [sysretExit, kernelExit])
      · exact h.frames

private theorem sysret_registers {rest : List SyscallInstruction} (h : TasksGood L s)
    (hrest : s.rest = .sysret :: rest) :
    (∀ r ∈ .rsp :: syscallSaved, s.cpu.registers r = s.entered s.current r) ∧ Ready L s.cpu ∧
      s.cpu.gsBase = L.node s.current := by
  cases h.phase with
  | outside houtside _ => rcases houtside with hnil | hhlt <;> simp_all
  | inside hready hnode hentered htail hpath hrun =>
      rw [hrest] at hpath
      rw [syscallPath_sysret htail hpath] at hrun
      obtain ⟨hregisters, hready', hgs⟩ := run_sysretExit hready hrun
      exact ⟨hentered ▸ hregisters, hready', hgs.trans hnode⟩

private theorem sysret {rest : List SyscallInstruction} {flag : Bool} (h : TasksGood L s)
    (hrest : s.rest = .sysret :: rest) :
    TasksGood L { s with rest := [], interruptFlag := flag } := by
  obtain ⟨-, hready, hgs⟩ := h.sysret_registers hrest
  exact ⟨.outside (.inl rfl) hready, fun _ => hgs, h.frames⟩

variable [DecidableEq ι] {m : SyscallMsrs}

private theorem syscall {rip rflags : BitVec 64} {flag : Bool} (h : TasksGood L s)
    (hrest : s.rest = []) : TasksGood L
      { s with
        cpu := (s.cpu.set .rcx rip).set .r11 rflags
        rest := syscallProgram
        interruptFlag := flag
        entered := Function.update s.entered s.current
          ((s.cpu.set .rcx rip).set .r11 rflags).registers } := by
  have hready := h.ready (.inl hrest)
  have hstart : Ready L ((s.cpu.set .rcx rip).set .r11 rflags) :=
    ⟨hready.kernelGsBase, hready.stackKernel⟩
  apply TasksGood.mk
  · exact .inside hstart (h.gsBase hrest)
      (Function.update_self _ _ _) (.inl rfl)
      (rfl : syscallPath sysretExit = [] ++ syscallProgram) (.nil _)
  · intro hnil
    exact absurd hnil (by simp [syscallProgram])
  · exact h.frames

private theorem switch {next : ι} (h : TasksGood L s) (houtside : s.rest = [] ∨ s.rest = [.hlt]) :
    TasksGood L (s.switch L next) := by
  have hready := h.ready houtside
  have hframes : ∀ i, (Function.update s.frames s.current
      ⟨s.cpu.registers, s.rest, s.interruptFlag⟩ i).rest = [] ∨
      (Function.update s.frames s.current
        ⟨s.cpu.registers, s.rest, s.interruptFlag⟩ i).rest = [.hlt] := by
    intro i
    by_cases hi : i = s.current
    · subst i
      rw [Function.update_self]
      exact houtside
    · rw [Function.update_of_ne hi]
      exact h.frames i hi
  apply TasksGood.mk
  · exact .outside (hframes next) ⟨hready.kernelGsBase, hready.stackKernel⟩
  · exact fun _ => rfl
  · exact fun i _ => hframes i

private theorem step {a : TaskAction ι} (h : TasksGood L s)
    (hstep : Guarded (TaskStep L m) SwitchesOutside s a t) : TasksGood L t := by
  obtain ⟨hguard, hstep⟩ := hstep
  cases hstep with
  | user hrest hgs hkernel hmemory => exact h.user hrest hgs hkernel hmemory
  | syscall rip rflags hrest _ => exact h.syscall hrest
  | execute hrest _ hstep => exact h.execute hrest hstep
  | checkExit hrest hstep =>
      apply h.checkExit hrest hstep
      split_ifs
      · exact .inl rfl
      · exact .inr rfl
  | sysret hrest => exact h.sysret hrest
  | tick _ => exact h
  | switch next _ => exact h.switch hguard

end TasksGood

/-- All tasks are in user code, and the CPU is ready. -/
structure TasksStart (L : SyscallLayout ι) (s : TaskCpu ι) : Prop where
  rest : s.rest = []
  ready : Ready L s.cpu
  gsBase : s.cpu.gsBase = L.node s.current
  frames : ∀ i, (s.frames i).rest = []

private theorem TasksStart.good {s : TaskCpu ι} (h : TasksStart L s) : TasksGood L s :=
  ⟨.outside (.inl h.rest) h.ready, fun _ => h.gsBase, fun i _ => .inl (h.frames i)⟩

end Runs

/-! ## Running the model -/

section Execution

variable {ι : Type} (L : SyscallLayout ι)

variable [DecidableEq ι] (m : SyscallMsrs)

end Execution

end VisualOS.Kernel
