import VisualOS.X86.Machine

/-!
# The two syscall routes

A user task traps into `syscall_entry` of `syscall.asm`, which finds the handler and calls it
with the registers as they are; code linked with the kernel calls the handler through the
`_vos_syscall` of `_vos_syscall_k.c`.
-/

namespace VisualOS.Kernel

open Framework

/-- The functions that `syshandler_get` may return. -/
inductive SysHandler
  | read | write | mmap | munmap | ioctl | readv | writev | execve | exit
  | getrlimit | sysinfo | schedGetaffinity | prlimit64 | stub
  deriving DecidableEq, Repr

/-- `s_handlers` of `sys.c`. -/
def sHandlers : List (BitVec 64 × SysHandler) :=
  [(0, .read), (1, .write), (9, .mmap), (11, .munmap), (16, .ioctl), (19, .readv), (20, .writev),
    (59, .execve), (60, .exit), (97, .getrlimit), (99, .sysinfo), (204, .schedGetaffinity),
    (302, .prlimit64)]

def syshandlerGet (num : BitVec 64) : SysHandler :=
  match sHandlers.find? fun entry => entry.1 = num with
  | some entry => entry.2
  | none => .stub

/-- What a handler is called with; functions are known by their addresses. -/
structure Invocation where
  handler : BitVec 64
  arguments : List (BitVec 64)
  deriving DecidableEq

/-- The routine `syscall_entry` calls before it calls the handler. -/
inductive SyscallRoutine
  | syshandlerGet
  deriving DecidableEq, Repr

section Entry

variable (address : SysHandler → BitVec 64)

/-- `syshandler_get` takes its argument from `rdi`, changes no register but `rax`, and uses
the stack below the stack pointer. -/
def syscallCalls : SyscallRoutine → Cpu → Cpu → Prop
  | .syshandlerGet, s, t =>
      t.registers = Function.update s.registers .rax (address (syshandlerGet (s.registers .rdi))) ∧
        t.gsBase = s.gsBase ∧ t.kernelGsBase = s.kernelGsBase ∧
        ∀ a : BitVec 64, s.registers .rsp ≤ a → t.memory a = s.memory a

/-- Offsets in `CPUContext`. -/
def cpuContextRspUserspace : BitVec 64 := 4

def cpuContextStackKernel : BitVec 64 := 28

/-- `SYSCALL_SAVE`. -/
def syscallSave : List (Instruction SyscallRoutine) :=
  [.push .r15, .push .r14, .push .r13, .push .r12, .push .r10, .push .r9, .push .r8, .push .rbp,
    .push .rdi, .push .rsi, .push .rdx, .push .rbx]

/-- The start of `syscall_entry`, up to `mov rdi, rax`. -/
def syscallSwitch : List (Instruction SyscallRoutine) :=
  [.swapgs, .movToGs cpuContextRspUserspace .rsp, .movFromGs .rsp cpuContextStackKernel] ++
    syscallSave ++ [.push .r11, .push .rcx]

/-- `syscall_entry` up to `call rbx`. -/
def syscallEntry : List (Instruction SyscallRoutine) :=
  syscallSwitch ++ [.mov .rdi .rax, .call .syshandlerGet, .mov .rbx .rax, .mov .rcx .r10]

/-- `call rbx`: the System V convention passes the first six arguments in these registers. -/
def syscallInvocation (s : Cpu) : Invocation where
  handler := s.registers .rbx
  arguments := [s.registers .rdi, s.registers .rsi, s.registers .rdx, s.registers .rcx,
    s.registers .r8, s.registers .r9]

/-- `va_arg`; `none` is reading past the arguments that were passed. -/
def vaArg (args : List (BitVec 64)) : Option (BitVec 64 × List (BitVec 64)) :=
  match args with
  | [] => none
  | a :: args => some (a, args)

/-- `_vos_syscall` of `_vos_syscall_k.c`: the call it makes.  `argc` is not used. -/
def vosSyscallKernel (num : BitVec 64) (_argc : Nat) (args : List (BitVec 64)) :
    Option Invocation := do
  let handler := address (syshandlerGet num)
  let (a1, args) ← vaArg args
  let (a2, args) ← vaArg args
  let (a3, args) ← vaArg args
  let (a4, args) ← vaArg args
  let (a5, args) ← vaArg args
  let (a6, _) ← vaArg args
  return ⟨handler, [a1, a2, a3, a4, a5, a6]⟩

/-- The registers in which `_vos_syscall1` to `_vos_syscall6` pass their arguments. -/
def syscallArgumentRegisters : List Register := [.rdi, .rsi, .rdx, .r10, .r8, .r9]

/-- `_vos_syscall` of `_vos_syscall_u.c`: the registers with which it executes `syscall`, or
`none` when it returns -1 without doing so. -/
def vosSyscallUser (num : BitVec 64) (argc : Nat) (args : List (BitVec 64))
    (registers : Register → BitVec 64) : Option (Register → BitVec 64) := do
  let (a1, args) ← vaArg args
  let (a2, args) ← vaArg args
  let (a3, args) ← vaArg args
  let (a4, args) ← vaArg args
  let (a5, args) ← vaArg args
  let (a6, _) ← vaArg args
  if argc ≤ 6 then
    let passed := (syscallArgumentRegisters.zip [a1, a2, a3, a4, a5, a6]).take argc
    return passed.foldl (fun registers (r, a) => Function.update registers r a)
      (Function.update registers .rax num)
  else none

end Entry

section Routes

variable {address : SysHandler → BitVec 64} {s t : Cpu}

/-- The registers that the calls of `syscall_entry` may change. -/
def syscallChanged : SyscallRoutine → List Register
  | .syshandlerGet => [.rax]

theorem syscallCalls_frame (routine : SyscallRoutine) (s t : Cpu)
    (h : syscallCalls address routine s t) (r : Register) (hr : r ∉ syscallChanged routine) :
    t.registers r = s.registers r := by
  cases routine with
  | syshandlerGet =>
      rw [h.1]
      exact Function.update_of_ne (by simpa [syscallChanged] using hr) _ _

private theorem syscallCalls_return (routine : SyscallRoutine) (s : Cpu) :
    ∃ t, syscallCalls address routine s t := by
  cases routine with
  | syshandlerGet => exact ⟨s.set .rax _, rfl, rfl, rfl, fun _ _ => rfl⟩

/-- At `call rbx` the handler is the one for `rax`, and so is the first argument; the others
are the ones the task passed. -/
theorem syscallEntry_invocation (h : Run (CpuStep (syscallCalls address)) s syscallEntry t) :
    syscallInvocation t = ⟨address (syshandlerGet (s.registers .rax)),
      [s.registers .rax, s.registers .rsi, s.registers .rdx, s.registers .r10, s.registers .r8,
        s.registers .r9]⟩ := by
  obtain ⟨u, hswitch, hrest⟩ := Run.split h
  -- Switching stacks and saving registers changes the stack pointer only.
  have hu : ∀ r, r ≠ .rsp → u.registers r = s.registers r := by
    intro r hr
    refine cpuRun_frame syscallCalls_frame hswitch ?_
    cases r <;> first | exact absurd rfl hr | decide
  simp only [Run.cons_iff, Run.nil_iff, cpuStep_mov_iff, cpuStep_call_iff, exists_eq_left] at hrest
  obtain ⟨v, hcall, rfl⟩ := hrest
  -- `rdi` still holds the number that was passed to `syshandler_get`.
  have hv : ∀ r, v.registers r = if r = .rax then address (syshandlerGet (s.registers .rax))
      else if r = .rdi then s.registers .rax else u.registers r := by
    intro r
    rw [hcall.1, Cpu.set_same, hu .rax (by decide), Function.update_apply]
    split
    · rfl
    · simp [Cpu.set, Function.update_apply]
  simp [syscallInvocation, Cpu.set, hv, hu]

/-- The handler that a user task reaches with `syscall`, set up as by `_vos_syscall` with six
arguments, is called exactly like the one reached by code in the kernel if and only if the
first argument equals the syscall number. -/
theorem syscall_routes_agree_iff (address : SysHandler → BitVec 64) (argc : Nat)
    {n a1 a2 a3 a4 a5 a6 : BitVec 64} {registers : Register → BitVec 64}
    (hs : vosSyscallUser n 6 [a1, a2, a3, a4, a5, a6] registers = some s.registers) :
    (∃ t, Run (CpuStep (syscallCalls address)) s syscallEntry t) ∧
      ∀ t, Run (CpuStep (syscallCalls address)) s syscallEntry t →
        (vosSyscallKernel address n argc [a1, a2, a3, a4, a5, a6] = some (syscallInvocation t) ↔
          a1 = n) := by
  refine ⟨exists_cpuRun syscallCalls_return s syscallEntry, ?_⟩
  intro t h
  have hregisters : s.registers .rax = n ∧ s.registers .rsi = a2 ∧ s.registers .rdx = a3 ∧
      s.registers .r10 = a4 ∧ s.registers .r8 = a5 ∧ s.registers .r9 = a6 := by
    rw [← Option.some.inj hs]
    simp [syscallArgumentRegisters]
  obtain ⟨hrax, hrsi, hrdx, hr10, hr8, hr9⟩ := hregisters
  have hkernel : vosSyscallKernel address n argc [a1, a2, a3, a4, a5, a6] =
      some ⟨address (syshandlerGet n), [a1, a2, a3, a4, a5, a6]⟩ := rfl
  rw [hkernel, syscallEntry_invocation h, hrax, hrsi, hrdx, hr10, hr8, hr9]
  simp

end Routes

/-- A user task about to call `write` on the given file descriptor. -/
def writeSyscall (fd : BitVec 64) : Cpu where
  registers r := if r = .rax then 1 else if r = .rdi then fd else 0
  gsBase := 0
  kernelGsBase := 0x200000
  memory _ := 0x100000

private theorem writeSyscall_user (fd : BitVec 64) :
    vosSyscallUser 1 6 [fd, 0, 0, 0, 0, 0] (fun _ => 0) = some (writeSyscall fd).registers := by
  refine congrArg some (funext fun r => ?_)
  cases r <;> rfl

/-- A kernel in which `sys_write` lies apart from the other handlers. -/
def smallLink : SysHandler → BitVec 64
  | .write => 0x2000
  | _ => 0x1000

/-- Standard output has descriptor 1, which is also the number of `write`. -/
theorem syscall_routes_agree_stdout :
    ∃ t, Run (CpuStep (syscallCalls smallLink)) (writeSyscall 1) syscallEntry t ∧
      vosSyscallKernel smallLink 1 6 [1, 0, 0, 0, 0, 0] = some (syscallInvocation t) := by
  obtain ⟨⟨t, ht⟩, hagree⟩ := syscall_routes_agree_iff smallLink 6 (writeSyscall_user 1)
  exact ⟨t, ht, (hagree t ht).mpr rfl⟩

/-- Standard error has descriptor 2; the handler is called with 1 instead. -/
theorem syscall_routes_differ_stderr :
    ∃ t, Run (CpuStep (syscallCalls smallLink)) (writeSyscall 2) syscallEntry t ∧
      vosSyscallKernel smallLink 1 6 [2, 0, 0, 0, 0, 0] ≠ some (syscallInvocation t) := by
  obtain ⟨t, ht⟩ := exists_cpuRun syscallCalls_return (writeSyscall 2) syscallEntry
  refine ⟨t, ht, ?_⟩
  rw [syscallEntry_invocation ht]
  decide

end VisualOS.Kernel
