import Mathlib.Tactic
import VisualOS.X86.Stack
import VisualOS.X86.Syscall

/-!
# A system call from its entry to its return

`syscall_entry` of `syscall.asm`, on a CPU that does nothing else in the meantime.  The stack
pointer of the task is kept in the CPU context and its registers on the CPU's kernel stack; the CPU
context is found through the GS base.
-/

namespace VisualOS.Kernel

open Framework

/-! ## The code -/

/-- Offsets in `SchedulerNode`. -/
def schedulerNodeFlags : BitVec 64 := 168

def schedulerNodeErrorCode : BitVec 64 := 176

deriving instance DecidableEq for Instruction

inductive SyscallInstruction
  | plain (i : Instruction SyscallRoutine)
  | pop (destination : Register)
  /-- `call rbx` up to its return. -/
  | handler
  /-- `lea rdx, [REL sys_exit]`, `cmp rbx, rdx`, `je .kernel_exit`. -/
  | checkExit
  /-- The finished flag and the error code. -/
  | finish
  | hlt
  | sysret
  deriving DecidableEq

/-- The registers that `syscall_entry` pushes, in that order. -/
def syscallSaved : List Register :=
  [.r15, .r14, .r13, .r12, .r10, .r9, .r8, .rbp, .rdi, .rsi, .rdx, .rbx, .r11, .rcx]

/-- `SYSCALL_RESTORE`. -/
def syscallRestore : List Register :=
  [.rbx, .rdx, .rsi, .rdi, .rbp, .r8, .r9, .r10, .r12, .r13, .r14, .r15]

def syscallHead : List SyscallInstruction :=
  syscallEntry.map .plain ++ .handler :: [.rcx, .r11].map .pop

/-- `.sysret_exit`. -/
def sysretExit : List SyscallInstruction :=
  syscallRestore.map .pop ++
    [.plain (.movFromGs .rsp cpuContextRspUserspace), .plain .swapgs, .sysret]

/-- `.kernel_exit`. -/
def kernelExit : List SyscallInstruction :=
  syscallRestore.map .pop ++ [.plain .swapgs, .finish, .hlt]

/-- `.sysret_exit` in front of its last instruction. -/
def sysretBody : List SyscallInstruction :=
  syscallRestore.map .pop ++ [.plain (.movFromGs .rsp cpuContextRspUserspace), .plain .swapgs]

/-- `.kernel_exit` in front of its last instruction. -/
def kernelBody : List SyscallInstruction := syscallRestore.map .pop ++ [.plain .swapgs, .finish]

def syscallProgram : List SyscallInstruction := syscallHead ++ .checkExit :: sysretExit

/-! ## What the code runs on -/

/-- The places of one CPU: its context and the top of its kernel stack, the tasks' scheduler nodes
and the handlers.  The context lies neither on the stack nor in a node. -/
structure SyscallLayout (ι : Type) where
  address : SysHandler → BitVec 64
  context : BitVec 64
  stackKernel : BitVec 64
  node : ι → BitVec 64
  stack_apart : ∀ k, 1 ≤ k → k ≤ syscallSaved.length →
    context + cpuContextRspUserspace ≠ stackKernel - BitVec.ofNat 64 (8 * k) ∧
      context + cpuContextStackKernel ≠ stackKernel - BitVec.ofNat 64 (8 * k)
  node_apart : ∀ i, context + cpuContextStackKernel ≠ node i + schedulerNodeFlags ∧
    context + cpuContextStackKernel ≠ node i + schedulerNodeErrorCode

section Model

variable {ι : Type}

/-- The memory that only `syscall_entry` uses: its two fields of the context, and the part of the
kernel stack it pushes registers on. -/
def SyscallLayout.Private (L : SyscallLayout ι) (a : BitVec 64) : Prop :=
  a = L.context + cpuContextRspUserspace ∨ a = L.context + cpuContextStackKernel ∨
    ∃ k, 1 ≤ k ∧ k ≤ syscallSaved.length ∧ a = L.stackKernel - BitVec.ofNat 64 (8 * k)

variable (L : SyscallLayout ι)

/-- A routine in the middle of a system call: it gives the stack pointer back and leaves the GS
bases and the private memory alone. -/
structure Harmless (s t : Cpu) : Prop where
  rsp : t.registers .rsp = s.registers .rsp
  gsBase : t.gsBase = s.gsBase
  kernelGsBase : t.kernelGsBase = s.kernelGsBase
  memory : ∀ a, L.Private a → t.memory a = s.memory a

def entryCalls (routine : SyscallRoutine) (s t : Cpu) : Prop :=
  syscallCalls L.address routine s t ∧ Harmless L s t

/-- A handler keeps the registers of its caller. -/
def handlerCall (s t : Cpu) : Prop :=
  Harmless L s t ∧ ∀ r ∈ [Register.rbx, .rbp, .r12, .r13, .r14, .r15], t.registers r = s.registers r

/-- One instruction as far as registers and memory go. -/
inductive EntryStep : Cpu → SyscallInstruction → Cpu → Prop
  | plain {s t : Cpu} {i : Instruction SyscallRoutine} :
      CpuStep (entryCalls L) s i t → EntryStep s (.plain i) t
  | pop (s : Cpu) (destination : Register) : EntryStep s (.pop destination) (s.pop destination)
  | handler {s t : Cpu} : handlerCall L s t → EntryStep s .handler t
  | checkExit (s : Cpu) : EntryStep s .checkExit (s.set .rdx (L.address .exit))
  | finish (s : Cpu) :
      EntryStep s .finish
        ((s.store (s.gsBase + schedulerNodeFlags)
            (s.memory (s.gsBase + schedulerNodeFlags) ||| 0b10)).store
          (s.gsBase + schedulerNodeErrorCode) (s.registers .rdi))

end Model

/-! ## One system call without a switch -/

section StraightLine

variable {ι : Type} {L : SyscallLayout ι} {s t start : Cpu}

private theorem SyscallLayout.private_userspace :
    L.Private (L.context + cpuContextRspUserspace) := .inl rfl

theorem SyscallLayout.private_stackKernel : L.Private (L.context + cpuContextStackKernel) :=
  .inr (.inl rfl)

private theorem SyscallLayout.private_stack {k : Nat} (hk : 1 ≤ k) (hle : k ≤ syscallSaved.length) :
    L.Private (L.stackKernel - BitVec.ofNat 64 (8 * k)) := .inr (.inr ⟨k, hk, hle, rfl⟩)

theorem Harmless.refl (s : Cpu) : Harmless L s s := ⟨rfl, rfl, rfl, fun _ _ => rfl⟩

theorem Harmless.trans {u : Cpu} (h : Harmless L s t) (h' : Harmless L t u) : Harmless L s u where
  rsp := h'.rsp.trans h.rsp
  gsBase := h'.gsBase.trans h.gsBase
  kernelGsBase := h'.kernelGsBase.trans h.kernelGsBase
  memory a ha := (h'.memory a ha).trans (h.memory a ha)

theorem harmless_set {r : Register} (hr : r ≠ .rsp) (value : BitVec 64) : Harmless L s (s.set r value) :=
  ⟨s.set_other value (Ne.symm hr), rfl, rfl, fun _ _ => rfl⟩

theorem entryStep_plain_iff {i : Instruction SyscallRoutine} :
    EntryStep L s (.plain i) t ↔ CpuStep (entryCalls L) s i t := by
  constructor
  · intro h
    cases h with
    | plain hstep => exact hstep
  · exact .plain

private theorem entryStep_finish_iff : EntryStep L s .finish t ↔
    t = (s.store (s.gsBase + schedulerNodeFlags)
        (s.memory (s.gsBase + schedulerNodeFlags) ||| 0b10)).store
      (s.gsBase + schedulerNodeErrorCode) (s.registers .rdi) := by
  constructor
  · intro h
    cases h
    rfl
  · rintro rfl
    exact .finish s

private theorem run_plain {block : List (Instruction SyscallRoutine)}
    (h : Run (EntryStep L) s (block.map .plain) t) : Run (CpuStep (entryCalls L)) s block t := by
  induction block generalizing s with
  | nil =>
      cases h
      exact .nil _
  | cons i block ih =>
      cases h with
      | cons hstep hrest =>
          cases hstep with
          | plain hstep => exact .cons hstep (ih hrest)

private theorem run_push {rs : List Register}
    (h : Run (CpuStep (entryCalls L)) s (rs.map .push) t) : t = s.pushAll rs := by
  induction rs generalizing s with
  | nil =>
      cases h
      rfl
  | cons r rs ih =>
      cases h with
      | cons hstep hrest =>
          cases hstep
          exact ih hrest

theorem run_pop {rs : List Register} (h : Run (EntryStep L) s (rs.map .pop) t) :
    t = s.popAll rs := by
  induction rs generalizing s with
  | nil =>
      cases h
      rfl
  | cons r rs ih =>
      cases h with
      | cons hstep hrest =>
          cases hstep
          exact ih hrest

/-- A CPU on which a task in user code may call: the kernel GS base is the CPU context. -/
structure Ready (L : SyscallLayout ι) (s : Cpu) : Prop where
  kernelGsBase : s.kernelGsBase = L.context
  stackKernel : s.memory (L.context + cpuContextStackKernel) = L.stackKernel

/-- A CPU in a system call, with what it will give back. -/
structure Inside (L : SyscallLayout ι) (start s : Cpu) (saved : List Register) : Prop where
  gsBase : s.gsBase = L.context
  kernelGsBase : s.kernelGsBase = start.gsBase
  stackKernel : s.memory (L.context + cpuContextStackKernel) = L.stackKernel
  userspace : s.memory (L.context + cpuContextRspUserspace) = start.registers .rsp
  rsp : s.registers .rsp = L.stackKernel - BitVec.ofNat 64 (8 * saved.length)
  stack : StackHolds s.memory (s.registers .rsp) (saved.map start.registers)

namespace Inside

variable {saved : List Register}

private theorem harmless (h : Inside L start s saved) (hlen : saved.length ≤ syscallSaved.length)
    (hharmless : Harmless L s t) : Inside L start t saved where
  gsBase := hharmless.gsBase.trans h.gsBase
  kernelGsBase := hharmless.kernelGsBase.trans h.kernelGsBase
  stackKernel := (hharmless.memory _ SyscallLayout.private_stackKernel).trans h.stackKernel
  userspace := (hharmless.memory _ SyscallLayout.private_userspace).trans h.userspace
  rsp := hharmless.rsp.trans h.rsp
  stack := by
    rw [hharmless.rsp]
    apply h.stack.congr
    intro k hk
    rw [List.length_map] at hk
    apply hharmless.memory
    have hslot : s.registers .rsp + BitVec.ofNat 64 (8 * k) =
        L.stackKernel - BitVec.ofNat 64 (8 * (saved.length - k)) := by
      have : syscallSaved.length = 14 := rfl
      rw [h.rsp]
      bv_omega
    rw [hslot]
    exact SyscallLayout.private_stack (by omega) (by omega)

end Inside

private theorem run_switch (hready : Ready L start)
    (h : Run (CpuStep (entryCalls L)) start
      [.swapgs, .movToGs cpuContextRspUserspace .rsp, .movFromGs .rsp cpuContextStackKernel] t) :
    Inside L start t [] ∧ ∀ r ≠ .rsp, t.registers r = start.registers r := by
  have hfields : L.context + cpuContextStackKernel ≠ L.context + cpuContextRspUserspace := by
    simp [cpuContextStackKernel, cpuContextRspUserspace]
  simp only [Run.cons_iff, Run.nil_iff, cpuStep_swapgs_iff, cpuStep_movToGs_iff,
    cpuStep_movFromGs_iff, exists_eq_left] at h
  subst t
  have hstack : Function.update start.memory (L.context + cpuContextRspUserspace)
      (start.registers .rsp) (L.context + cpuContextStackKernel) = L.stackKernel := by
    rw [Function.update_of_ne hfields, hready.stackKernel]
  apply And.intro
  · apply Inside.mk
    · exact hready.kernelGsBase
    · rfl
    · simpa [Cpu.set, Cpu.store, hready.kernelGsBase] using hstack
    · simp [Cpu.set, Cpu.store, hready.kernelGsBase]
    · simpa [Cpu.set, Cpu.store, hready.kernelGsBase] using hstack
    · trivial
  · intro r hr
    simp [Cpu.set, Cpu.store, hr]

private theorem Inside.pushAll (h : Inside L start s [])
    (hregisters : ∀ r ≠ .rsp, s.registers r = start.registers r) :
    Inside L start (s.pushAll syscallSaved) syscallSaved.reverse := by
  have hrsp : s.registers .rsp = L.stackKernel := by simpa using h.rsp
  have hmap : syscallSaved.map s.registers = syscallSaved.map start.registers := by
    apply List.map_congr_left
    intro r hr
    exact hregisters r (fun h => absurd (h ▸ hr) (by decide))
  apply Inside.mk
  · exact (pushAll_gs s _).1.trans h.gsBase
  · exact (pushAll_gs s _).2.trans h.kernelGsBase
  · rw [pushAll_memory (fun k hk hle => hrsp ▸ (L.stack_apart k hk hle).2), h.stackKernel]
  · rw [pushAll_memory (fun k hk hle => hrsp ▸ (L.stack_apart k hk hle).1), h.userspace]
  · rw [pushAll_rsp, hrsp, List.length_reverse]
  · have hstack : StackHolds s.memory (s.registers .rsp) [] := trivial
    have := pushAll_holds (by decide : .rsp ∉ syscallSaved) (by decide) hstack
    rwa [List.append_nil, hmap, ← List.map_reverse] at this

private theorem Inside.popAll {rs saved : List Register} (h : Inside L start s (rs ++ saved))
    (hrsp : .rsp ∉ rs) (hnodup : rs.Nodup) :
    Inside L start (s.popAll rs) saved ∧
      ∀ r ∈ rs, (s.popAll rs).registers r = start.registers r := by
  have hstack := h.stack
  rw [List.map_append] at hstack
  obtain ⟨hvalues, hrest⟩ := popAll_holds (List.length_map _) hrsp hnodup hstack
  apply And.intro
  · apply Inside.mk
    · exact (popAll_gs s _).1.trans h.gsBase
    · exact (popAll_gs s _).2.trans h.kernelGsBase
    · rw [popAll_memory, h.stackKernel]
    · rw [popAll_memory, h.userspace]
    · rw [popAll_rsp hrsp, h.rsp, List.length_append]
      bv_omega
    · rw [popAll_memory]
      exact hrest
  · exact List.map_inj_left.mp hvalues

/-- The instructions that touch neither the stack nor the GS bases. -/
def SyscallInstruction.harmless : SyscallInstruction → Bool
  | .plain (.mov destination _) => destination ≠ .rsp
  | .plain (.call _) => true
  | .handler => true
  | .checkExit => true
  | _ => false

private theorem EntryStep.harmless {i : SyscallInstruction} (h : EntryStep L s i t)
    (hi : i.harmless = true) : Harmless L s t := by
  cases h with
  | plain hstep =>
      cases hstep with
      | mov destination source => exact harmless_set (by simpa [SyscallInstruction.harmless] using hi) _
      | call hcall => exact hcall.2
      | _ => exact absurd hi (by simp [SyscallInstruction.harmless])
  | handler hcall => exact hcall.1
  | checkExit => exact harmless_set (by decide) _
  | _ => exact absurd hi (by simp [SyscallInstruction.harmless])

private theorem run_harmless {block : List SyscallInstruction} (h : Run (EntryStep L) s block t)
    (hblock : ∀ i ∈ block, i.harmless = true) : Harmless L s t := by
  induction h with
  | nil => exact .refl _
  | cons hstep _ ih =>
      rw [List.forall_mem_cons] at hblock
      exact (hstep.harmless hblock.1).trans (ih hblock.2)

private theorem syscallSwitch_eq : syscallSwitch =
    [.swapgs, .movToGs cpuContextRspUserspace .rsp, .movFromGs .rsp cpuContextStackKernel] ++
      syscallSaved.map .push := rfl

private theorem syscallSaved_reverse : syscallSaved.reverse = [.rcx, .r11] ++ syscallRestore := rfl

private theorem run_head (hready : Ready L start) (h : Run (EntryStep L) start syscallHead t) :
    Inside L start t syscallRestore ∧ ∀ r ∈ [Register.rcx, .r11], t.registers r = start.registers r := by
  rw [syscallHead, syscallEntry, syscallSwitch_eq, List.map_append, List.map_append,
    List.append_assoc, List.append_assoc] at h
  obtain ⟨u, hswitch, h⟩ := Run.split h
  obtain ⟨v, hpush, h⟩ := Run.split h
  rw [List.append_cons] at h
  obtain ⟨w, hmiddle, hpop⟩ := Run.split h
  obtain ⟨hinside, hregisters⟩ := run_switch hready (run_plain hswitch)
  obtain rfl := run_push (run_plain hpush)
  obtain rfl := run_pop hpop
  have hsaved := hinside.pushAll hregisters
  have hcalled := hsaved.harmless (by decide) (run_harmless hmiddle (by decide))
  rw [syscallSaved_reverse] at hcalled
  exact hcalled.popAll (by decide) (by decide)

private theorem run_restore (hready : Ready L start)
    (h : Run (EntryStep L) start (syscallHead ++ .checkExit :: syscallRestore.map .pop) t) :
    Inside L start t [] ∧ ∀ r ∈ syscallSaved, t.registers r = start.registers r := by
  obtain ⟨u, hhead, h⟩ := Run.split h
  obtain ⟨hinside, hflags⟩ := run_head hready hhead
  cases h with
  | cons hcheck hpop =>
  have hchecked := hinside.harmless (by decide) (hcheck.harmless rfl)
  obtain rfl := run_pop hpop
  rw [← List.append_nil syscallRestore] at hchecked
  obtain ⟨hdone, hrestored⟩ := hchecked.popAll (by decide) (by decide)
  refine ⟨hdone, fun r hr => ?_⟩
  by_cases hmem : r ∈ syscallRestore
  · exact hrestored r hmem
  · -- The address to return to and the flags were popped before.
    have hflag : r ∈ [Register.rcx, .r11] := by
      rw [← List.mem_reverse, syscallSaved_reverse, List.mem_append] at hr
      exact hr.resolve_right hmem
    have hne : r ≠ .rsp ∧ r ≠ .rdx := by
      constructor <;> exact fun h => absurd (h ▸ hflag) (by decide)
    cases hcheck
    rw [popAll_register hne.1 hmem, Cpu.set_other _ _ hne.2, hflags r hflag]

/-- The return to user code gives back the stack pointer and every register that was pushed. -/
theorem run_sysretExit (hready : Ready L start)
    (h : Run (EntryStep L) start (syscallHead ++ .checkExit :: sysretBody) t) :
    (∀ r ∈ .rsp :: syscallSaved, t.registers r = start.registers r) ∧ Ready L t ∧
      t.gsBase = start.gsBase := by
  rw [sysretBody, ← List.cons_append, ← List.append_assoc] at h
  obtain ⟨u, hrestore, h⟩ := Run.split h
  obtain ⟨hinside, hrestored⟩ := run_restore hready hrestore
  simp only [Run.cons_iff, Run.nil_iff, entryStep_plain_iff, cpuStep_movFromGs_iff,
    cpuStep_swapgs_iff, exists_eq_left] at h
  subst t
  refine ⟨?_, ⟨hinside.gsBase, hinside.stackKernel⟩, hinside.kernelGsBase⟩
  rw [List.forall_mem_cons]
  apply And.intro
  · simp [Cpu.set, hinside.gsBase, hinside.userspace]
  · intro r hr
    have hne : r ≠ .rsp := fun h => absurd (h ▸ hr) (by decide)
    simp [Cpu.set, hne, hrestored r hr]

theorem run_kernelExit (hready : Ready L start)
    (hnode : L.context + cpuContextStackKernel ≠ start.gsBase + schedulerNodeFlags ∧
      L.context + cpuContextStackKernel ≠ start.gsBase + schedulerNodeErrorCode)
    (h : Run (EntryStep L) start (syscallHead ++ .checkExit :: kernelBody) t) : Ready L t := by
  rw [kernelBody, ← List.cons_append, ← List.append_assoc] at h
  obtain ⟨u, hrestore, h⟩ := Run.split h
  obtain ⟨hinside, -⟩ := run_restore hready hrestore
  simp only [Run.cons_iff, Run.nil_iff, entryStep_plain_iff, entryStep_finish_iff,
    cpuStep_swapgs_iff, exists_eq_left] at h
  subst t
  apply Ready.mk
  · exact hinside.gsBase
  · simp [Cpu.store, hinside.kernelGsBase, Function.update_of_ne hnode.1,
      Function.update_of_ne hnode.2, hinside.stackKernel]

end StraightLine

/-! ## The ways through the code -/

section Paths

variable {ι : Type} {L : SyscallLayout ι}

/-- The ways through `syscall_entry`. -/
def syscallPath (tail : List SyscallInstruction) : List SyscallInstruction :=
  syscallHead ++ .checkExit :: tail

/-- The instructions at which the ways part or end. -/
def SyscallInstruction.parts : SyscallInstruction → Bool
  | .checkExit => true
  | .hlt => true
  | .sysret => true
  | _ => false

private theorem notMem_of_parts {l : List SyscallInstruction} {i : SyscallInstruction}
    (hl : ∀ j ∈ l, j.parts = false) (hi : i.parts = true) : i ∉ l := by
  intro hmem
  rw [hl i hmem] at hi
  cases hi

private theorem syscallHead_parts : ∀ j ∈ syscallHead, j.parts = false := by decide

private theorem syscallPath_last {body executed rest : List SyscallInstruction}
    {last i : SyscallInstruction} (hbody : ∀ j ∈ body, j.parts = false) (hi : i.parts = true)
    (hne : i ≠ .checkExit)
    (hpath : syscallHead ++ .checkExit :: body ++ [last] = executed ++ i :: rest) :
    executed = syscallHead ++ .checkExit :: body ∧ last = i := by
  have hbefore : i ∉ syscallHead ++ .checkExit :: body := by
    rw [List.mem_append, List.mem_cons]
    rintro (hmem | hmem | hmem)
    · exact notMem_of_parts syscallHead_parts hi hmem
    · exact hne hmem
    · exact notMem_of_parts hbody hi hmem
  obtain ⟨hexecuted, hlast, -⟩ :=
    (List.append_cons_inj_of_notMem hbefore List.not_mem_nil).mp hpath
  exact ⟨hexecuted.symm, hlast⟩

private theorem syscallPath_sysretExit : syscallPath sysretExit =
    syscallHead ++ .checkExit :: sysretBody ++ [.sysret] := by
  simp [syscallPath, sysretExit, sysretBody]

private theorem syscallPath_kernelExit : syscallPath kernelExit =
    syscallHead ++ .checkExit :: kernelBody ++ [.hlt] := by
  simp [syscallPath, kernelExit, kernelBody]

theorem not_run_path {tail : List SyscallInstruction} {start t : Cpu}
    (htail : tail = sysretExit ∨ tail = kernelExit) :
    ¬Run (EntryStep L) start (syscallPath tail) t := by
  intro h
  rcases htail with rfl | rfl
  · rw [syscallPath_sysretExit] at h
    obtain ⟨u, -, h⟩ := Run.split h
    cases h with
    | cons hstep _ => cases hstep
  · rw [syscallPath_kernelExit] at h
    obtain ⟨u, -, h⟩ := Run.split h
    cases h with
    | cons hstep _ => cases hstep

theorem syscallPath_checkExit {tail executed rest : List SyscallInstruction}
    (htail : tail = sysretExit ∨ tail = kernelExit)
    (hpath : syscallPath tail = executed ++ .checkExit :: rest) :
    executed = syscallHead ∧ rest = tail := by
  have hafter : SyscallInstruction.checkExit ∉ tail := by
    rcases htail with rfl | rfl <;> simp [sysretExit, kernelExit]
  obtain ⟨rfl, -, rfl⟩ := (List.append_cons_inj_of_notMem
    (notMem_of_parts syscallHead_parts rfl) hafter).mp hpath
  exact ⟨rfl, rfl⟩

theorem syscallPath_sysret {tail executed rest : List SyscallInstruction}
    (htail : tail = sysretExit ∨ tail = kernelExit)
    (hpath : syscallPath tail = executed ++ .sysret :: rest) :
    executed = syscallHead ++ .checkExit :: sysretBody := by
  rcases htail with rfl | rfl
  · rw [syscallPath_sysretExit] at hpath
    exact (syscallPath_last (by decide) rfl (by simp) hpath).1
  · rw [syscallPath_kernelExit] at hpath
    exact absurd (syscallPath_last (by decide) rfl (by simp) hpath).2 (by simp)

theorem syscallPath_hlt {tail executed rest : List SyscallInstruction}
    (htail : tail = sysretExit ∨ tail = kernelExit)
    (hpath : syscallPath tail = executed ++ .hlt :: rest) :
    executed = syscallHead ++ .checkExit :: kernelBody := by
  rcases htail with rfl | rfl
  · rw [syscallPath_sysretExit] at hpath
    exact absurd (syscallPath_last (by decide) rfl (by simp) hpath).2 (by simp)
  · rw [syscallPath_kernelExit] at hpath
    exact (syscallPath_last (by decide) rfl (by simp) hpath).1

end Paths

end VisualOS.Kernel
