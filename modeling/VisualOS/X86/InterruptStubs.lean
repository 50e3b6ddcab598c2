import Mathlib.Tactic
import VisualOS.X86.InterruptDelivery
import VisualOS.X86.Ioapic
import VisualOS.X86.Stack

/-!
# Interrupt service routines

The entry points of `isr.asm` around the handlers of `isr.c`.  An interrupt pushes what `iretq`
takes from the stack again; in between an entry point saves the general registers, calls the handler
that is registered for its vector, if there is one, and for an interrupt request tells the local APIC
that the interrupt is over.
-/

namespace VisualOS.Kernel

open Framework

/-! ## Interrupts and `iretq` -/

/-- The state of a CPU that an interrupt gives up and `iretq` restores. -/
structure Core where
  cpu : Cpu
  rip : BitVec 64
  cs : BitVec 64
  rflags : BitVec 64
  ss : BitVec 64

def Cpu.pushValues (s : Cpu) (vs : List (BitVec 64)) : Cpu := vs.foldl Cpu.push s

/-- The words of an interrupted state, in the order of their addresses. -/
def Core.frame (s : Core) : List (BitVec 64) :=
  [s.rip, s.cs, s.rflags, s.cpu.registers .rsp, s.ss]

/-- The vectors for which the processor pushes an error code. -/
def pushesErrorCode (vector : Nat) : Bool := vector ∈ [8, 10, 11, 12, 13, 14, 17, 21, 29, 30]

/-- What the processor pushes, from the stack of the gate on. -/
def interruptEnter (stack : BitVec 64) (vector : Nat) (errorCode : BitVec 64) (s : Core) : Cpu :=
  let entered := (s.cpu.set .rsp (stack &&& ~~~0xf#64)).pushValues s.frame.reverse
  if pushesErrorCode vector then entered.push errorCode else entered

def iretq (s : Cpu) : Core :=
  let rsp := s.registers .rsp
  { cpu := s.set .rsp (s.memory (rsp + 8 + 8 + 8))
    rip := s.memory rsp
    cs := s.memory (rsp + 8)
    rflags := s.memory (rsp + 8 + 8)
    ss := s.memory (rsp + 8 + 8 + 8 + 8) }

/-! ## `isr.c` -/

/-- `g_isr_handlers`. -/
abbrev IsrHandlers := Nat → BitVec 64

def isrExists (table : IsrHandlers) (num : Nat) : Bool := table num ≠ 0

/-! ## `isr.asm` -/

def pushReg : List Register :=
  [.r15, .r14, .r13, .r12, .r11, .r10, .r9, .r8, .rbp, .rdi, .rsi, .rdx, .rcx, .rbx, .rax]

def popReg : List Register :=
  [.rax, .rbx, .rcx, .rdx, .rsi, .rdi, .rbp, .r8, .r9, .r10, .r11, .r12, .r13, .r14, .r15]

/-- What an entry point works with.  A routine that does not return is `none`. -/
structure IsrEnvironment where
  handlers : IsrHandlers
  handler : BitVec 64 → Cpu → Option Cpu
  localApicEoi : Cpu → Option Cpu

/-- The calls of an entry point; `s` is the state at the call. -/
inductive IsrEvent
  | handler (address : BitVec 64) (s : Cpu)
  | eoi

/-- `mov rdi, rsp`, `mov rsi, ISR_NUM` and `call rax`. -/
def isrCall (env : IsrEnvironment) (num : Nat) (s : Cpu) : Option (List IsrEvent × Cpu) := do
  let s := (s.set .rdi (s.registers .rsp)).set .rsi (BitVec.ofNat 64 num)
  let t ← env.handler (s.registers .rax) s
  return ([.handler (s.registers .rax) s], t)

/-- `ISR_DEFINE`.  `cli` and `sti` only change the flags, which `iretq` loads. -/
def isrDefine (env : IsrEnvironment) (num : Nat) (hasError : Bool) (s : Cpu) :
    Option (List IsrEvent × Cpu) := do
  let s := if hasError then s else s.push 0
  let s := (s.pushAll pushReg).set .rax (env.handlers num)
  let (events, s) ← if s.registers .rax = 0 then some ([], s) else isrCall env num s
  let s := s.popAll popReg
  return (events, s.set .rsp (s.registers .rsp + 8))

/-- `ISR_DEFINE_IRQ`. -/
def isrDefineIrq (env : IsrEnvironment) (num : Nat) (s : Cpu) : Option (List IsrEvent × Cpu) := do
  let s := (s.pushAll pushReg).set .rax (env.handlers num)
  let (events, s) ←
    if s.registers .rax = 0 then some ([], s)
    else do
      let (events, s) ← isrCall env num s
      let s ← env.localApicEoi s
      pure (events ++ [.eoi], s)
  return (events, s.popAll popReg)

/-- `ISR_DEFINE_DIRECT`: the handler is jumped to, and leaves by an `iretq` of its own. -/
def isrDefineDirect (env : IsrEnvironment) (num : Nat) (s : Cpu) : Option (List IsrEvent × Cpu) := do
  let t ← env.handler (env.handlers num) s
  return ([.handler (env.handlers num) s], t)

inductive IsrStub
  | define (hasError : Bool)
  | irq
  | direct
  deriving DecidableEq, Repr

/-- The entry points that `isr.asm` defines. -/
def isrStubs : List (Nat × IsrStub) :=
  ([8, 10, 11, 13, 14].map fun num => (num, .define true)) ++
    ([32, 33, 35, 36, 37, 38, 39, 40, 41, 42, 43, 44, 45, 46, 47].map fun num => (num, .irq)) ++
    [(48, .direct)]

def IsrStub.run (env : IsrEnvironment) (num : Nat) : IsrStub → Cpu → Option (List IsrEvent × Cpu)
  | .define hasError => isrDefine env num hasError
  | .irq => isrDefineIrq env num
  | .direct => isrDefineDirect env num

/-! ## What is on the stack -/

section Frame

variable {s t : Cpu} {ws vs : List (BitVec 64)}

private theorem pushValues_holds (hlen : ws.length + vs.length < 2 ^ 32)
    (h : StackHolds s.memory (s.registers .rsp) vs) :
    StackHolds (s.pushValues ws).memory ((s.pushValues ws).registers .rsp) (ws.reverse ++ vs) := by
  induction ws generalizing s vs with
  | nil => exact h
  | cons w ws ih =>
      rw [List.length_cons] at hlen
      have hpushed : StackHolds (s.push w).memory ((s.push w).registers .rsp) (w :: vs) := by
        rw [Cpu.push_rsp]
        exact h.push (by omega)
      have := ih (by rw [List.length_cons]; omega) hpushed
      simpa [Cpu.pushValues] using this

private theorem pushValues_rsp :
    (s.pushValues ws).registers .rsp = s.registers .rsp - BitVec.ofNat 64 (8 * ws.length) := by
  induction ws generalizing s with
  | nil => exact (BitVec.sub_zero _).symm
  | cons w ws ih =>
      change ((s.push w).pushValues ws).registers .rsp = _
      rw [ih, Cpu.push_rsp, List.length_cons]
      bv_omega

private theorem Cpu.push_register {r : Register} (hr : r ≠ .rsp) (s : Cpu) (value : BitVec 64) :
    (s.push value).registers r = s.registers r :=
  s.set_other _ hr

private theorem pushValues_register {r : Register} (hr : r ≠ .rsp) :
    (s.pushValues ws).registers r = s.registers r := by
  induction ws generalizing s with
  | nil => rfl
  | cons w ws ih =>
      change ((s.push w).pushValues ws).registers r = _
      rw [ih, Cpu.push_register hr]

/-- A routine that gives the stack pointer back and leaves the words above it alone. -/
structure KeepsFrame (words : Nat) (s t : Cpu) : Prop where
  rsp : t.registers .rsp = s.registers .rsp
  memory : ∀ k < words, t.memory (s.registers .rsp + BitVec.ofNat 64 (8 * k)) =
    s.memory (s.registers .rsp + BitVec.ofNat 64 (8 * k))

theorem KeepsFrame.refl (words : Nat) (s : Cpu) : KeepsFrame words s s := ⟨rfl, fun _ _ => rfl⟩

private theorem KeepsFrame.trans {u : Cpu} {words : Nat} (h : KeepsFrame words s t)
    (h' : KeepsFrame words t u) : KeepsFrame words s u := by
  refine ⟨h'.rsp.trans h.rsp, ?_⟩
  intro k hk
  have hmemory := h'.memory k hk
  rw [h.rsp] at hmemory
  exact hmemory.trans (h.memory k hk)

private theorem keepsFrame_set {r : Register} (hr : r ≠ .rsp) (words : Nat) (s : Cpu)
    (value : BitVec 64) : KeepsFrame words s (s.set r value) :=
  ⟨s.set_other value (Ne.symm hr), fun _ _ => rfl⟩

private theorem KeepsFrame.holds {words : Nat} (h : KeepsFrame words s t) (hlen : vs.length ≤ words)
    (hs : StackHolds s.memory (s.registers .rsp) vs) :
    StackHolds t.memory (t.registers .rsp) vs := by
  rw [h.rsp]
  exact hs.congr fun k hk => h.memory k (by omega)

private theorem mem_popReg {r : Register} (hr : r ≠ .rsp) : r ∈ popReg := by
  cases r <;> first | exact absurd rfl hr | decide

/-- `POP_REG` undoes `PUSH_REG`, whatever has happened to the registers in between. -/
theorem popReg_pushReg (hlen : vs.length ≤ 6) (hs : StackHolds s.memory (s.registers .rsp) vs)
    (h : KeepsFrame 21 (s.pushAll pushReg) t) :
    (∀ r, (t.popAll popReg).registers r = s.registers r) ∧
      StackHolds t.memory (s.registers .rsp) vs := by
  have hsaved := h.holds (by simp [pushReg]; omega)
    (pushAll_holds (by decide : .rsp ∉ pushReg) (by simp [pushReg]; omega) hs)
  rw [← List.map_reverse] at hsaved
  obtain ⟨hrestored, hrest⟩ := popAll_holds rfl (by decide : .rsp ∉ popReg) (by decide) hsaved
  have hrsp : (t.popAll popReg).registers .rsp = s.registers .rsp := by
    rw [popAll_rsp (by decide), h.rsp, pushAll_rsp]
    exact BitVec.sub_add_cancel ..
  apply And.intro
  · intro r
    by_cases hr : r = .rsp
    · rw [hr, hrsp]
    · exact List.map_inj_left.mp hrestored r (mem_popReg hr)
  · rwa [← hrsp]

private theorem iretq_resumes {c : Core} (hgeneral : ∀ r ≠ .rsp, t.registers r = c.cpu.registers r)
    (h : StackHolds t.memory (t.registers .rsp) c.frame) :
    (iretq t).frame = c.frame ∧ (iretq t).cpu.registers = c.cpu.registers := by
  obtain ⟨hrip, hcs, hrflags, hrsp, hss, -⟩ := h
  apply And.intro
  · simp only [Core.frame, iretq, Cpu.set_same, hrip, hcs, hrflags, hrsp, hss]
  · funext r
    simp only [iretq]
    by_cases hr : r = .rsp
    · rw [hr, Cpu.set_same, hrsp]
    · rw [Cpu.set_other _ _ hr, hgeneral r hr]

end Frame

/-! ## From the interrupt to `iretq` -/

section Resume

variable {env : IsrEnvironment} {num : Nat} {s t : Cpu} {vs : List (BitVec 64)}

/-- The handlers and `local_apic_eoi` keep to the calling convention as far as the stack goes. -/
structure IsrEnvironment.KeepsFrames (env : IsrEnvironment) : Prop where
  handler : ∀ address s t, env.handler address s = some t → KeepsFrame 21 s t
  eoi : ∀ s t, env.localApicEoi s = some t → KeepsFrame 21 s t

/-- The error code and the frame of an interrupted state. -/
def errorFrame (vector : Nat) (errorCode : BitVec 64) (s : Core) : List (BitVec 64) :=
  if pushesErrorCode vector then errorCode :: s.frame else s.frame

theorem interruptEnter_holds (stack : BitVec 64) (vector : Nat) (errorCode : BitVec 64) (s : Core) :
    StackHolds (interruptEnter stack vector errorCode s).memory
      ((interruptEnter stack vector errorCode s).registers .rsp) (errorFrame vector errorCode s) := by
  have hempty : StackHolds s.cpu.memory (stack &&& ~~~0xf#64) [] := trivial
  have hlen : s.frame.reverse.length + ([] : List (BitVec 64)).length < 2 ^ 32 := by
    simp [Core.frame]
  have hframe := pushValues_holds (s := s.cpu.set .rsp (stack &&& ~~~0xf#64)) hlen hempty
  rw [List.reverse_reverse, List.append_nil] at hframe
  by_cases hcode : pushesErrorCode vector = true
  · rw [interruptEnter, errorFrame, if_pos hcode, if_pos hcode, Cpu.push_rsp]
    exact hframe.push (by simp [Core.frame])
  · rwa [interruptEnter, errorFrame, if_neg hcode, if_neg hcode]

theorem interruptEnter_rsp (stack : BitVec 64) (vector : Nat) (errorCode : BitVec 64) (s : Core) :
    (interruptEnter stack vector errorCode s).registers .rsp =
      (stack &&& ~~~0xf#64) - BitVec.ofNat 64 (8 * (errorFrame vector errorCode s).length) := by
  by_cases hcode : pushesErrorCode vector = true
  · rw [interruptEnter, errorFrame, if_pos hcode, if_pos hcode, Cpu.push_rsp, pushValues_rsp,
      Cpu.set_same]
    simp only [Core.frame, List.length_reverse, List.length_cons, List.length_nil]
    bv_omega
  · rw [interruptEnter, errorFrame, if_neg hcode, if_neg hcode, pushValues_rsp, Cpu.set_same,
      List.length_reverse]

theorem interruptEnter_register {r : Register} (hr : r ≠ .rsp) (stack : BitVec 64) (vector : Nat)
    (errorCode : BitVec 64) (s : Core) :
    (interruptEnter stack vector errorCode s).registers r = s.cpu.registers r := by
  have hframe : ((s.cpu.set .rsp (stack &&& ~~~0xf#64)).pushValues s.frame.reverse).registers r =
      s.cpu.registers r := by
    rw [pushValues_register hr, Cpu.set_other _ _ hr]
  by_cases hcode : pushesErrorCode vector = true
  · rw [interruptEnter, if_pos hcode, Cpu.push_register hr, hframe]
  · rwa [interruptEnter, if_neg hcode]

/-- What a handler is given: the vector, and a pointer to the saved registers with the interrupted
state behind them. -/
structure HandlerEntered (num : Nat) (entry : Cpu) (vs : List (BitVec 64)) (s : Cpu) : Prop where
  pointer : s.registers .rdi = s.registers .rsp
  num : s.registers .rsi = BitVec.ofNat 64 num
  rsp : s.registers .rsp = entry.registers .rsp - 120
  words : StackHolds s.memory (s.registers .rdi) (popReg.map entry.registers ++ vs)

/-- The common part of the entry points: what `call rax` calls and leaves. -/
theorem isrCall_spec (hkeeps : env.KeepsFrames) (hlen : vs.length ≤ 6)
    (hs : StackHolds s.memory (s.registers .rsp) vs) {events : List IsrEvent}
    (h : isrCall env num ((s.pushAll pushReg).set .rax (env.handlers num)) = some (events, t)) :
    KeepsFrame 21 (s.pushAll pushReg) t ∧
      ∃ u, HandlerEntered num s vs u ∧ events = [.handler (env.handlers num) u] := by
  simp only [isrCall, Option.bind_eq_bind, Option.bind_eq_some_iff, Option.pure_def,
    Option.some.injEq, Prod.mk.injEq] at h
  obtain ⟨_, hcall, rfl, rfl⟩ := h
  set saved := s.pushAll pushReg with hsaved
  set u := ((saved.set .rax (env.handlers num)).set .rdi
    ((saved.set .rax (env.handlers num)).registers .rsp)).set .rsi (BitVec.ofNat 64 num) with hu
  have hentered : KeepsFrame 21 saved u :=
    ((keepsFrame_set (by decide) 21 saved _).trans (keepsFrame_set (by decide) 21 _ _)).trans
      (keepsFrame_set (by decide) 21 _ _)
  have hpointer : u.registers .rdi = u.registers .rsp := by simp [hu, Cpu.set]
  have hrax : u.registers .rax = env.handlers num := by simp [hu, Cpu.set]
  apply And.intro
  · exact hentered.trans (hkeeps.handler _ _ _ hcall)
  · refine ⟨u, ⟨hpointer, by simp [hu], ?_, ?_⟩, by rw [hrax]⟩
    · rw [hentered.rsp, hsaved, pushAll_rsp]
      rfl
    · have hwords := hentered.holds (by simp [pushReg]; omega)
        (pushAll_holds (by decide : .rsp ∉ pushReg) (by simp [pushReg]; omega) hs)
      rwa [← List.map_reverse, ← hpointer] at hwords

/-- What an entry point calls: nothing without a handler, and the end of interrupt only after one. -/
def IsrCalls (env : IsrEnvironment) (num : Nat) (entry : Cpu) (vs : List (BitVec 64))
    (after events : List IsrEvent) : Prop :=
  if env.handlers num = 0 then events = []
  else ∃ u, HandlerEntered num entry vs u ∧ events = .handler (env.handlers num) u :: after

private theorem isrDefineIrq_spec (hkeeps : env.KeepsFrames) (hlen : vs.length ≤ 6)
    (hs : StackHolds s.memory (s.registers .rsp) vs) {events : List IsrEvent}
    (h : isrDefineIrq env num s = some (events, t)) :
    t.registers = s.registers ∧ StackHolds t.memory (s.registers .rsp) vs ∧
      IsrCalls env num s vs [.eoi] events := by
  rw [isrDefineIrq, Cpu.set_same] at h
  by_cases hnull : env.handlers num = 0
  · rw [if_pos hnull] at h
    obtain ⟨rfl, rfl⟩ := Prod.mk.inj (Option.some.inj h)
    obtain ⟨hregisters, hrest⟩ := popReg_pushReg hlen hs
      (keepsFrame_set (r := .rax) (by decide) 21 (s.pushAll pushReg) (env.handlers num))
    refine ⟨funext hregisters, ?_, ?_⟩
    · rwa [popAll_memory]
    · rw [IsrCalls, if_pos hnull]
  · rw [if_neg hnull] at h
    simp only [Option.bind_eq_bind, Option.bind_eq_some_iff, Option.pure_def, Option.some.injEq,
      Prod.mk.injEq, Prod.exists] at h
    obtain ⟨_, u, hcall, v, heoi, _, _, ⟨rfl, rfl⟩, rfl, rfl⟩ := h
    obtain ⟨hkept, c, hentered, rfl⟩ := isrCall_spec hkeeps hlen hs hcall
    obtain ⟨hregisters, hrest⟩ := popReg_pushReg hlen hs (hkept.trans (hkeeps.eoi _ _ heoi))
    refine ⟨funext hregisters, ?_, ?_⟩
    · rwa [popAll_memory]
    · rw [IsrCalls, if_neg hnull]
      exact ⟨c, hentered, rfl⟩

/-- `s` is the state behind `push QWORD 0`, if there is one; the word on top of the stack is dropped
at the end. -/
theorem isrDefine_spec {hasError : Bool} {start : Cpu} {word : BitVec 64}
    (hkeeps : env.KeepsFrames) (hlen : vs.length ≤ 5)
    (hstart : (if hasError then start else start.push 0) = s)
    (hs : StackHolds s.memory (s.registers .rsp) (word :: vs)) {events : List IsrEvent}
    (h : isrDefine env num hasError start = some (events, t)) :
    t.registers = (s.set .rsp (s.registers .rsp + 8)).registers ∧
      StackHolds t.memory (s.registers .rsp + 8) vs ∧
      IsrCalls env num s (word :: vs) [] events := by
  have hlen' : (word :: vs).length ≤ 6 := by
    rw [List.length_cons]
    omega
  -- What is left to be shown once the registers are popped.
  have hfinish : ∀ u : Cpu, KeepsFrame 21 (s.pushAll pushReg) u →
      ((u.popAll popReg).set .rsp ((u.popAll popReg).registers .rsp + 8)).registers =
          (s.set .rsp (s.registers .rsp + 8)).registers ∧
        StackHolds u.memory (s.registers .rsp + 8) vs := by
    intro u hu
    obtain ⟨hregisters, -, hrest⟩ := popReg_pushReg hlen' hs hu
    refine ⟨?_, hrest⟩
    have hpopped : (u.popAll popReg).registers = s.registers := funext hregisters
    rw [Cpu.set, Cpu.set, hpopped]
  rw [isrDefine, hstart, Cpu.set_same] at h
  by_cases hnull : env.handlers num = 0
  · rw [if_pos hnull] at h
    obtain ⟨rfl, rfl⟩ := Prod.mk.inj (Option.some.inj h)
    obtain ⟨hregisters, hrest⟩ := hfinish _
      (keepsFrame_set (r := .rax) (by decide) 21 (s.pushAll pushReg) (env.handlers num))
    refine ⟨hregisters, ?_, ?_⟩
    · change StackHolds (Cpu.popAll _ _).memory _ _
      rwa [popAll_memory]
    · rw [IsrCalls, if_pos hnull]
  · rw [if_neg hnull] at h
    simp only [Option.bind_eq_bind, Option.bind_eq_some_iff, Option.pure_def, Option.some.injEq,
      Prod.mk.injEq, Prod.exists] at h
    obtain ⟨_, u, hcall, rfl, rfl⟩ := h
    obtain ⟨hkept, c, hentered, rfl⟩ := isrCall_spec hkeeps hlen' hs hcall
    obtain ⟨hregisters, hrest⟩ := hfinish u hkept
    refine ⟨hregisters, ?_, ?_⟩
    · change StackHolds (Cpu.popAll _ _).memory _ _
      rwa [popAll_memory]
    · rw [IsrCalls, if_neg hnull]
      exact ⟨c, hentered, rfl⟩

theorem run_null {stub : IsrStub} (hstub : stub ≠ .direct) (hnull : env.handlers num = 0) (s : Cpu) :
    ∃ t, stub.run env num s = some ([], t) := by
  cases stub with
  | define hasError =>
      simp only [IsrStub.run, isrDefine, Cpu.set_same, hnull, if_true]
      exact ⟨_, rfl⟩
  | irq =>
      simp only [IsrStub.run, isrDefineIrq, Cpu.set_same, hnull, if_true]
      exact ⟨_, rfl⟩
  | direct => exact absurd rfl hstub

end Resume

private theorem isrStubs_cases {num : Nat} {stub : IsrStub} (h : (num, stub) ∈ isrStubs) :
    stub = .define true ∧ pushesErrorCode num = true ∨
      stub = .irq ∧ pushesErrorCode num = false ∨ num = 48 ∧ stub = .direct := by
  have hall : ∀ g ∈ isrStubs, g.2 = .define true ∧ pushesErrorCode g.1 = true ∨
      g.2 = .irq ∧ pushesErrorCode g.1 = false ∨ g.1 = 48 ∧ g.2 = .direct := by decide
  exact hall _ h

private theorem and_not_fifteen (stack : BitVec 64) :
    stack &&& ~~~0xf#64 = (stack >>> 4) <<< 4 := by
  ext i hi
  simp only [BitVec.getElem_and, BitVec.getElem_shiftLeft, BitVec.getElem_not]
  by_cases hlow : i < 4
  · interval_cases i <;> simp
  · have hmask : (15#64)[i] = false := by
      rw [← BitVec.getLsbD_eq_getElem, BitVec.getLsbD_ofNat]
      simp [Nat.testBit_lt_two_pow (show 15 < 2 ^ i from
        lt_of_lt_of_le (by decide) (Nat.pow_le_pow_right (by decide) (Nat.le_of_not_lt hlow)))]
    simp [hlow, hmask, Nat.add_sub_cancel' (Nat.le_of_not_lt hlow), BitVec.getLsbD_eq_getElem hi]

theorem and_not_fifteen_toNat (stack : BitVec 64) :
    (stack &&& ~~~0xf#64).toNat = stack.toNat / 16 * 16 := by
  rw [and_not_fifteen, BitVec.toNat_shiftLeft, BitVec.toNat_ushiftRight, Nat.shiftRight_eq_div_pow,
    Nat.shiftLeft_eq]
  omega

private theorem aligned_toNat (stack : BitVec 64) : (stack &&& ~~~0xf#64).toNat % 16 = 0 := by
  rw [and_not_fifteen_toNat]
  exact Nat.mul_mod_left _ 16

private theorem IsrCalls.seen {env : IsrEnvironment} {num : Nat} {stack errorCode : BitVec 64}
    {s : Core} {after events : List IsrEvent}
    (h : IsrCalls env num (interruptEnter stack num errorCode s) (errorFrame num errorCode s) after
      events) :
    if env.handlers num = 0 then events = []
    else ∃ u, events = .handler (env.handlers num) u :: after ∧
      u.registers .rsi = BitVec.ofNat 64 num ∧
      (u.registers .rsp).toNat % 16 = (if pushesErrorCode num then 8 else 0) ∧
      StackHolds u.memory (u.registers .rdi)
        (popReg.map s.cpu.registers ++ errorFrame num errorCode s) := by
  by_cases hnull : env.handlers num = 0
  · rwa [IsrCalls, if_pos hnull] at *
  · rw [IsrCalls, if_neg hnull] at h
    rw [if_neg hnull]
    obtain ⟨u, hu, rfl⟩ := h
    have hgeneral : popReg.map (interruptEnter stack num errorCode s).registers =
        popReg.map s.cpu.registers := by
      apply List.map_congr_left
      intro r hr
      exact interruptEnter_register (fun h => absurd (h ▸ hr) (by decide)) ..
    refine ⟨u, rfl, hu.num, ?_, hgeneral ▸ hu.words⟩
    have haligned := aligned_toNat stack
    rw [hu.rsp, interruptEnter_rsp]
    generalize stack &&& ~~~0xf#64 = top at haligned
    by_cases hcode : pushesErrorCode num = true
    · rw [errorFrame, if_pos hcode, if_pos hcode]
      simp only [Core.frame, List.length_cons, List.length_nil]
      bv_omega
    · rw [errorFrame, if_neg hcode, if_neg hcode]
      simp only [Core.frame, List.length_cons, List.length_nil]
      bv_omega

/-- An interrupt that goes through an entry point of `isr.asm` is invisible to what it interrupts,
whatever the handler does to the registers.  The handler sees the interrupted state; its stack is
aligned for an interrupt request and eight bytes off for an exception. -/
theorem interrupts_resume {env : IsrEnvironment} (hkeeps : env.KeepsFrames) {num : Nat}
    {stub : IsrStub} (hstub : (num, stub) ∈ isrStubs) (hdirect : stub ≠ .direct)
    (stack errorCode : BitVec 64) (s : Core) :
    (env.handlers num = 0 →
        ∃ t, stub.run env num (interruptEnter stack num errorCode s) = some ([], t)) ∧
      ∀ events t, stub.run env num (interruptEnter stack num errorCode s) = some (events, t) →
        (iretq t).frame = s.frame ∧ (iretq t).cpu.registers = s.cpu.registers ∧
          if env.handlers num = 0 then events = []
          else ∃ u, events = .handler (env.handlers num) u :: (if stub = .irq then [.eoi] else []) ∧
            u.registers .rsi = BitVec.ofNat 64 num ∧
            (u.registers .rsp).toNat % 16 = (if pushesErrorCode num then 8 else 0) ∧
            StackHolds u.memory (u.registers .rdi)
              (popReg.map s.cpu.registers ++ errorFrame num errorCode s) := by
  refine ⟨fun hnull => run_null hdirect hnull _, ?_⟩
  intro events t h
  have hheld := interruptEnter_holds stack num errorCode s
  have hentry : ∀ r ≠ .rsp, (interruptEnter stack num errorCode s).registers r = s.cpu.registers r :=
    fun r hr => interruptEnter_register hr ..
  rcases isrStubs_cases hstub with ⟨rfl, hcode⟩ | ⟨rfl, hcode⟩ | ⟨-, rfl⟩
  · have hframe : errorFrame num errorCode s = errorCode :: s.frame := by rw [errorFrame, if_pos hcode]
    have hrun : isrDefine env num true (interruptEnter stack num errorCode s) = some (events, t) := h
    rw [hframe] at hheld
    obtain ⟨hregisters, hrest, hcalls⟩ :=
      isrDefine_spec hkeeps (by simp [Core.frame]) (if_pos rfl) hheld hrun
    have hresumes := iretq_resumes (t := t) (c := s)
      (by intro r hr; rw [hregisters, Cpu.set_other _ _ hr, hentry r hr])
      (by rwa [hregisters, Cpu.set_same])
    rw [← hframe] at hcalls
    exact ⟨hresumes.1, hresumes.2, hcalls.seen⟩
  · have hframe : errorFrame num errorCode s = s.frame := by simp [errorFrame, hcode]
    have hrun : isrDefineIrq env num (interruptEnter stack num errorCode s) = some (events, t) := h
    obtain ⟨hregisters, hrest, hcalls⟩ :=
      isrDefineIrq_spec hkeeps (by simp [hframe, Core.frame]) hheld hrun
    have hresumes := iretq_resumes (t := t) (c := s)
      (by intro r hr; rw [hregisters, hentry r hr]) (by rwa [hregisters, ← hframe])
    exact ⟨hresumes.1, hresumes.2, hcalls.seen⟩
  · exact absurd rfl hdirect

/-- Only the keyboard has a handler, which leaves other values in two registers. -/
def keyboardEnvironment : IsrEnvironment where
  handlers num := if num = 33 then 0x200000 else 0
  handler _ s := some ((s.set .rax 1).set .r12 2)
  localApicEoi s := some (s.set .rcx 3)

private theorem keyboardEnvironment_keepsFrames : keyboardEnvironment.KeepsFrames := by
  apply IsrEnvironment.KeepsFrames.mk
  · rintro address s _ ⟨⟩
    exact (keepsFrame_set (by decide) 21 s 1).trans (keepsFrame_set (by decide) 21 _ 2)
  · rintro s _ ⟨⟩
    exact keepsFrame_set (by decide) 21 s 3

/-- A task in the middle of something. -/
def busyCore : Core where
  cpu := ⟨fun _ => 7, 0, 0, fun _ => 0⟩
  rip := 0x400000
  cs := 0x2b
  rflags := 0x202
  ss := 0x23

theorem interrupts_resume_keyboard :
    ∃ u t, IsrStub.irq.run keyboardEnvironment 33 (interruptEnter 0x9000 33 0 busyCore) =
        some ([.handler 0x200000 u, .eoi], t) ∧
      (iretq t).frame = busyCore.frame ∧ (iretq t).cpu.registers .r12 = 7 := by
  obtain ⟨-, hall⟩ := interrupts_resume keyboardEnvironment_keepsFrames
    (by decide : (33, .irq) ∈ isrStubs) (by decide) 0x9000 0 busyCore
  have hrun : ∃ events t, IsrStub.irq.run keyboardEnvironment 33
      (interruptEnter 0x9000 33 0 busyCore) = some (events, t) := ⟨_, _, rfl⟩
  obtain ⟨events, t, hrun⟩ := hrun
  obtain ⟨hframe, hregisters, u, hevents, -⟩ := hall events t hrun
  rw [hrun, hevents]
  exact ⟨u, t, rfl, hframe, congrFun hregisters .r12⟩

end VisualOS.Kernel
