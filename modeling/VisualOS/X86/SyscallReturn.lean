import Mathlib.Tactic
import VisualOS.X86.SyscallEntry

/-!
# What a system call returns

`syscall_entry` of `syscall.asm` with any handler that keeps to the calling convention, on a CPU
that does nothing else in the meantime.  Of `syshandler_get` no more is known than of the handler,
except for the address it returns.
-/

namespace VisualOS.Kernel

open Framework

section Model

variable {ι : Type} (L : SyscallLayout ι)

/-- `syshandler_get` as a routine that keeps to the calling convention. -/
def conventionCalls (routine : SyscallRoutine) (s t : Cpu) : Prop :=
  match routine with
  | .syshandlerGet =>
      handlerCall L s t ∧ t.registers .rax = L.address (syshandlerGet (s.registers .rdi))

/-- `pop rcx`, `pop r11` and `lea rdx, [REL sys_exit]` after the handler. -/
def exitCheck (returned : Cpu) : Cpu := ((returned.pop .rcx).pop .r11).set .rdx (L.address .exit)

/-- `cmp rbx, rdx` and `je .kernel_exit`. -/
def exitWay (checked : Cpu) : List SyscallInstruction :=
  if checked.registers .rbx = checked.registers .rdx then kernelExit else sysretExit

/-- A system call that nothing interrupts: up to `call rbx`, the handler, and the way that the check
leads to, in front of its last instruction. -/
structure CompletedSyscall (handler : Cpu → Cpu → Prop) (start called returned : Cpu)
    (last : SyscallInstruction) (t : Cpu) : Prop where
  entry : Run (CpuStep (conventionCalls L)) start syscallEntry called
  handler : handler called returned
  way : ∃ body, exitWay (exitCheck L returned) = body ++ [last] ∧
    Run (EntryStep L) (exitCheck L returned) body t

end Model

section Entry

variable {ι : Type} {L : SyscallLayout ι} {start s t called returned : Cpu}

private theorem handlerCall.trans {u : Cpu} (h : handlerCall L s t) (h' : handlerCall L t u) :
    handlerCall L s u := by
  apply And.intro
  · exact h.1.trans h'.1
  · intro r hr
    exact (h'.2 r hr).trans (h.2 r hr)

private theorem conventionCalls_return (routine : SyscallRoutine) (s : Cpu) :
    ∃ t, conventionCalls L routine s t := by
  cases routine with
  | syshandlerGet =>
      refine ⟨s.set .rax _, ⟨harmless_set (by decide) _, ?_⟩, s.set_same .rax _⟩
      intro r hr
      exact s.set_other _ (fun h => absurd (h ▸ hr) (by decide))

/-- The handler is the one for `rax`; and what `syshandler_get` did to other registers the handler
may do as well, so that nothing is lost when it is taken to change `rax` only. -/
theorem conventionRun_entry (h : Run (CpuStep (conventionCalls L)) start syscallEntry called) :
    called.registers .rbx = L.address (syshandlerGet (start.registers .rax)) ∧
      ∃ u, Run (CpuStep (entryCalls L)) start syscallEntry u ∧ handlerCall L u called := by
  have hstraight : ∀ i ∈ syscallSwitch, ∀ routine, i ≠ .call routine := by
    rintro i hi routine rfl
    revert hi
    cases routine
    decide
  obtain ⟨s, hswitch, h⟩ := Run.split h
  have hrax : s.registers .rax = start.registers .rax :=
    cpuRun_frame syscallCalls_frame (cpuRun_straight hswitch hstraight :
      Run (CpuStep (syscallCalls L.address)) start syscallSwitch s) (by decide)
  simp only [Run.cons_iff, Run.nil_iff, cpuStep_mov_iff, cpuStep_call_iff, exists_eq_left] at h
  obtain ⟨v, hcall, rfl⟩ := h
  obtain ⟨⟨hharmless, hkept⟩, haddress⟩ := hcall
  apply And.intro
  · simpa [Cpu.set, hrax] using haddress
  · let w := (s.set .rdi (s.registers .rax)).set .rax (v.registers .rax)
    have hcalled : entryCalls L .syshandlerGet (s.set .rdi (s.registers .rax)) w := by
      refine ⟨⟨?_, rfl, rfl, fun _ _ => rfl⟩, harmless_set (by decide) _⟩
      exact congrArg (Function.update _ _) haddress
    refine ⟨_, (cpuRun_straight hswitch hstraight).append (.cons (.mov s .rdi .rax)
      (.cons (.call hcalled) (.cons (.mov w .rbx .rax) (.cons (.mov _ .rcx .r10) (.nil _))))), ?_⟩
    apply And.intro
    · exact ⟨by simpa [w, Cpu.set] using hharmless.rsp, hharmless.gsBase, hharmless.kernelGsBase,
        hharmless.memory⟩
    · simpa [w, Cpu.set] using (List.forall_mem_cons.mp hkept).2

end Entry

/-! ## The return -/

section Return

variable {ι : Type} {L : SyscallLayout ι} {start s t called returned : Cpu}

private theorem run_map_plain {block : List (Instruction SyscallRoutine)}
    (h : Run (CpuStep (entryCalls L)) s block t) : Run (EntryStep L) s (block.map .plain) t := by
  induction h with
  | nil => exact .nil _
  | cons hstep _ ih => exact .cons (.plain hstep) ih

private theorem run_map_pop (s : Cpu) (rs : List Register) :
    Run (EntryStep L) s (rs.map .pop) (s.popAll rs) := by
  induction rs generalizing s with
  | nil => exact .nil s
  | cons r rs ih => exact .cons (.pop s r) (ih _)

private theorem sysretExit_eq : sysretExit = sysretBody ++ [.sysret] := rfl

private theorem exists_run_sysretBody (s : Cpu) : ∃ t, Run (EntryStep L) s sysretBody t :=
  ⟨_, (run_map_pop s syscallRestore).append (.cons (.plain (.movFromGs _ _ _))
    (.cons (.plain (.swapgs _)) (.nil _)))⟩

private theorem run_sysretBody_rax (h : Run (EntryStep L) s sysretBody t) :
    t.registers .rax = s.registers .rax := by
  obtain ⟨u, hpop, h⟩ := Run.split h
  obtain rfl := run_pop hpop
  simp only [Run.cons_iff, Run.nil_iff, entryStep_plain_iff, cpuStep_movFromGs_iff,
    cpuStep_swapgs_iff, exists_eq_left] at h
  subst t
  have hkept : (s.popAll syscallRestore).registers .rax = s.registers .rax :=
    popAll_register (by decide) (by decide)
  simpa [Cpu.set] using hkept

private theorem exitCheck_register {r : Register} (hr : r ∉ [Register.rcx, .r11, .rdx, .rsp]) :
    (exitCheck L returned).registers r = returned.registers r := by
  simp only [List.mem_cons, List.not_mem_nil, or_false, not_or] at hr
  simp [exitCheck, Cpu.pop, Cpu.set, hr]

private theorem exitWay_sysret (hrbx : returned.registers .rbx ≠ L.address .exit) :
    exitWay (exitCheck L returned) = sysretExit := by
  have hne : (exitCheck L returned).registers .rbx ≠ (exitCheck L returned).registers .rdx := by
    rw [exitCheck_register (by decide), exitCheck, Cpu.set_same]
    exact hrbx
  rw [exitWay, if_neg hne]

private theorem run_through_sysret (h : Run (CpuStep (conventionCalls L)) start syscallEntry called)
    (hhandler : handlerCall L called returned)
    (hbody : Run (EntryStep L) (exitCheck L returned) sysretBody t) :
    Run (EntryStep L) start (syscallHead ++ .checkExit :: sysretBody) t := by
  obtain ⟨-, u, hentry, hcalled⟩ := conventionRun_entry h
  have hhead : Run (EntryStep L) start syscallHead ((returned.pop .rcx).pop .r11) :=
    (run_map_plain hentry).append (.cons (.handler (hcalled.trans hhandler))
      (run_map_pop returned [.rcx, .r11]))
  exact hhead.append (.cons (.checkExit _) hbody)

end Return

/-- A system call with any handler but `sys_exit` returns, and always by `sysret`; every register is
as it was at the entry, except that `rax` is what the handler returned. -/
theorem syscall_preserves_registers {ι : Type} {L : SyscallLayout ι} {handler : Cpu → Cpu → Prop}
    {start : Cpu} (hready : Ready L start) (hhandler : ∀ s t, handler s t → handlerCall L s t)
    (hreturns : ∀ s, ∃ t, handler s t)
    (hexit : L.address (syshandlerGet (start.registers .rax)) ≠ L.address .exit) :
    (∃ called returned last t, CompletedSyscall L handler start called returned last t) ∧
      ∀ called returned last t, CompletedSyscall L handler start called returned last t →
        last = .sysret ∧ (∀ r ≠ .rax, t.registers r = start.registers r) ∧
          t.registers .rax = returned.registers .rax := by
  have hway : ∀ called returned, Run (CpuStep (conventionCalls L)) start syscallEntry called →
      handler called returned → exitWay (exitCheck L returned) = sysretExit := by
    intro called returned hentry hcall
    apply exitWay_sysret
    rw [(hhandler _ _ hcall).2 .rbx (by decide), (conventionRun_entry hentry).1]
    exact hexit
  constructor
  · obtain ⟨called, hentry⟩ := exists_cpuRun conventionCalls_return start syscallEntry
    obtain ⟨returned, hcall⟩ := hreturns called
    obtain ⟨t, hbody⟩ := exists_run_sysretBody (L := L) (exitCheck L returned)
    exact ⟨called, returned, .sysret, t, hentry, hcall, sysretBody, hway _ _ hentry hcall, hbody⟩
  · rintro called returned last t ⟨hentry, hcall, body, hbody, hrun⟩
    rw [hway _ _ hentry hcall, sysretExit_eq] at hbody
    obtain ⟨rfl, hlast⟩ := List.append_inj' hbody rfl
    have hpath := run_through_sysret hentry (hhandler _ _ hcall) hrun
    have hrestored := (run_sysretExit hready hpath).1
    refine ⟨(List.head_eq_of_cons_eq hlast).symm, ?_, ?_⟩
    · intro r hr
      apply hrestored
      cases r <;> first | exact absurd rfl hr | decide
    · rw [run_sysretBody_rax hrun, exitCheck_register (by decide)]

/-- A CPU on which `writeSyscall` may call. -/
def writeLayout : SyscallLayout Unit where
  address := smallLink
  context := 0x200000
  stackKernel := 0x100000
  node _ := 0x400000
  stack_apart := by decide
  node_apart := by decide

/-- A handler that returns 5 and leaves everything else alone. -/
theorem syscall_preserves_registers_write :
    ∃ called returned t,
      CompletedSyscall writeLayout (fun s t => t = s.set .rax 5) (writeSyscall 1) called returned
          .sysret t ∧
        t.registers .rdi = 1 ∧ t.registers .rax = 5 := by
  have hhandler : ∀ s t, t = s.set .rax 5 → handlerCall writeLayout s t := by
    rintro s t rfl
    refine ⟨harmless_set (by decide) _, fun r hr => s.set_other _ fun h => ?_⟩
    exact absurd (h ▸ hr) (by decide)
  obtain ⟨⟨called, returned, last, t, h⟩, hall⟩ :=
    @syscall_preserves_registers Unit writeLayout (fun s t => t = s.set .rax 5) (writeSyscall 1)
      ⟨rfl, rfl⟩ hhandler (fun s => ⟨_, rfl⟩) (by decide)
  obtain ⟨rfl, hkept, hrax⟩ := hall called returned last t h
  refine ⟨called, returned, t, h, hkept .rdi (by decide), ?_⟩
  rw [hrax, h.handler, Cpu.set_same]

end VisualOS.Kernel
