import VisualOS.Scheduler.Interrupts
import VisualOS.Scheduler.Process

/-!
# Processes that are created while other CPUs schedule

One CPU goes through `process_create_new` stage by stage, and the others take tasks in between.
`scheduler_add_task` makes the node of a new process available before `process_create_new` has
stored the process in it.
-/

namespace VisualOS.Kernel

open Framework

/-- The stages of `process_create_new` that other CPUs can come between. -/
inductive CreateStage
  | spinlock
  | construct
  | addTask
  | setThread
  | setTask
  | add
  | unlock
  deriving DecidableEq, Repr

namespace CreateStage

def run (rounds : Nat) (c : CreateCall) : CreateStage → ProcessKernel → Option ProcessKernel
  | spinlock => processSpinlock c.parentPtr
  | construct => c.construct
  | addTask => c.addTask rounds
  | setThread => c.setThread
  | setTask => c.setTask
  | add => processAdd rounds c.parentPtr c.processPtr
  | unlock => processUnlock c.parentPtr

def next : CreateStage → Option CreateStage
  | spinlock => some construct
  | construct => some addTask
  | addTask => some setThread
  | setThread => some setTask
  | setTask => some add
  | add => some unlock
  | unlock => none

end CreateStage

/-- `C` are the CPUs that schedule.  `creating` is what the CPU that creates processes does next;
`owner` says which process a node was created for. -/
structure Creation (C : Type) where
  kernel : ProcessKernel
  current : C → NodePtr
  registers : C → SchedulerContextFrame
  creating : Option (CreateCall × CreateStage)
  owner : NodePtr → Option Nat

inductive CreationAction (C : Type)
  | call (c : CreateCall)
  | advance
  | other (a : SmpAction C)

/-- The part of `timer_handler` that switches to the page table of the process, if the node
has one; the kernel's is loaded before. -/
def timerPml4 (kernelPml4 : BitVec 64) (node : NodePtr) (s : ProcessKernel) :
    Option (BitVec 64) :=
  if s.taskProcess node = .null then some kernelPml4
  else do
    let contents ← s.processes (s.taskProcess node)
    return if contents.pml4 = 0 then kernelPml4 else contents.pml4

namespace Creation

variable {C : Type}

def smp (s : Creation C) : Smp C := ⟨s.kernel.scheduler, s.current, s.registers⟩

/-- After `schedulerAddTask` outside of `process_create_new` the node has no process. -/
def clearTask (a : SmpAction C) (s : Creation C) : Creation C :=
  match a with
  | .addTask address _ _ =>
      { s with
        kernel := { s.kernel with
          taskProcess := Function.update s.kernel.taskProcess (.task address) .null }
        owner := Function.update s.owner (.task address) none }
  | _ => s

def withSmp (smp : Smp C) (s : Creation C) : Creation C :=
  { s with
    kernel := { s.kernel with scheduler := smp.scheduler }
    current := smp.current
    registers := smp.registers }

/-- A new node belongs to the process it is made for. -/
def advanceOwner (c : CreateCall) (stage : CreateStage) (owner : NodePtr → Option Nat) :
    NodePtr → Option Nat :=
  if stage = .addTask then Function.update owner c.nodePtr (some c.process) else owner

/-- The new node can be taken, but does not know its process. -/
def Publishing (s : Creation C) (c : CreateCall) : Prop :=
  s.creating = some (c, .setThread) ∨ s.creating = some (c, .setTask)

/-- What should hold of the node a CPU has taken. -/
def TakenWhole (s : Creation C) (cpu : C) : Prop :=
  ∀ process, s.owner (s.current cpu) = some process →
    s.kernel.taskProcess (s.current cpu) = .process process ∧
      ∃ contents, s.kernel.processes (.process process) = some contents ∧
        ∀ kernelPml4, contents.pml4 ≠ 0 →
          timerPml4 kernelPml4 (s.current cpu) s.kernel = some contents.pml4

end Creation

section Machine

variable {C : Type} [DecidableEq C]

inductive CreationStep : Creation C → CreationAction C → Creation C → Prop
  | call {s : Creation C} {c : CreateCall} :
      s.creating = none → s.kernel.processes c.processPtr = none →
      CreationStep s (.call c) { s with creating := some (c, .spinlock) }
  | advance {s : Creation C} {c : CreateCall} {stage : CreateStage} {kernel : ProcessKernel}
      (rounds : Nat) :
      s.creating = some (c, stage) →
      (stage = .addTask → s.kernel.scheduler.nodes c.nodePtr = none) →
      stage.run rounds c s.kernel = some kernel →
      CreationStep s .advance
        { s with
          kernel
          creating := stage.next.map fun next => (c, next)
          owner := Creation.advanceOwner c stage s.owner }
  | other {s : Creation C} {a : SmpAction C} {smp : Smp C} :
      SmpStep s.smp a smp → CreationStep s (.other a) ((s.clearTask a).withSmp smp)

/-- After `process_init` and `scheduler_init`, with no CPU in the scheduler yet. -/
def creationInit (pml4 : BitVec 64) (paging : Paging) (schedulerIdle : BitVec 64)
    (taskProcess : NodePtr → ProcessPtr) (registers : C → SchedulerContextFrame) : Creation C where
  kernel := processInit pml4 paging (initialScheduler schedulerIdle) taskProcess
  current _ := .null
  registers
  creating := none
  owner _ := none

end Machine

/-- A task that is ready and in a queue of higher priority than the queue of `node`. -/
def WaitsAhead (s : Scheduler) (node : NodePtr) : Prop :=
  ∃ p c c', p ≠ .idle ∧ s.context p = some c ∧ s.context node = some c' ∧ s.ready p = true ∧
    c.queueNum.toNat < c'.queueNum.toNat

/-- While a new node does not know its process, an interrupt finds another task to take. -/
def Undisturbed {C : Type} (s : Creation C) : CreationAction C → Prop
  | .other (.timer _) => ∀ c, s.Publishing c → WaitsAhead s.kernel.scheduler c.nodePtr
  | _ => True

private theorem WaitsAhead.undisturbed {C : Type} {s : Creation C} {c : CreateCall}
    {stage : CreateStage} {cpu : C} (hcreating : s.creating = some (c, stage))
    (h : WaitsAhead s.kernel.scheduler c.nodePtr) : Undisturbed s (.other (.timer cpu)) := by
  rintro c' (hc' | hc')
  · rw [hcreating, Option.some.injEq, Prod.mk.injEq] at hc'
    rwa [← hc'.1]
  · rw [hcreating, Option.some.injEq, Prod.mk.injEq] at hc'
    rwa [← hc'.1]

private theorem undisturbed_of_none {C : Type} {s : Creation C} {cpu : C}
    (hcreating : s.creating = none) : Undisturbed s (.other (.timer cpu)) := by
  intro c hc
  simp [Creation.Publishing, hcreating] at hc

/-! ## Which task an interrupt takes -/

section Taken

variable {s t : Scheduler} {rings rings' : Rings} {p p' : NodePtr} {c c' : TaskContext}

private theorem TaskReleased.queueNum (h : TaskReleased s rings t p rings')
    (hc : s.context p' = some c) (hc' : t.context p' = some c') : c'.queueNum = c.queueNum := by
  by_cases hne : p' = p
  · subst hne
    cases h with
    | none _ ht =>
        rw [ht, hc, Option.some.injEq] at hc'
        rw [hc']
    | finished _ _ _ hcontext => simp [hcontext] at hc'
    | unlocked _ hc₀ _ hcontext =>
        rw [hc, Option.some.injEq] at hc₀
        rw [hcontext, Function.update_self, Option.some.injEq] at hc'
        rw [← hc', hc₀]
        rfl
  · rw [h.context_ne hne, hc, Option.some.injEq] at hc'
    rw [hc']

private theorem find?_ready_le {q : SchedulerQueueNumber} (qs : List SchedulerQueueNumber)
    (hsorted : qs.Pairwise fun q q' => q.toNat ≤ q'.toNat) (hq : q ∈ qs) (hp : p ∈ rings q)
    (hready : s.ready p = true) :
    ∃ x q', (qs.flatMap rings).find? s.ready = some x ∧ x ∈ rings q' ∧ q'.toNat ≤ q.toNat := by
  induction qs with
  | nil => exact absurd hq List.not_mem_nil
  | cons q₀ qs ih =>
      rw [List.flatMap_cons, List.find?_append]
      cases hfind : (rings q₀).find? s.ready with
      | some x =>
          refine ⟨x, q₀, rfl, List.mem_of_find?_eq_some hfind, ?_⟩
          rcases List.mem_cons.mp hq with rfl | hq
          · exact Nat.le_refl _
          · exact (List.pairwise_cons.mp hsorted).1 q hq
      | none =>
          rw [Option.none_or]
          apply ih (List.pairwise_cons.mp hsorted).2
          apply (List.mem_cons.mp hq).resolve_left
          rintro rfl
          exact List.find?_eq_none.mp hfind p hp hready

variable {C : Type} [DecidableEq C] {smp smp' : Smp C} {cpu : C}
  {frames : NodePtr → SchedulerContextFrame}

/-- An interrupt does not take a task with another one waiting ahead of it. -/
theorem WaitsAhead.not_taken (h : SmpInvariant smp rings frames)
    (ht : timerHandler cpu smp = some smp') (hahead : WaitsAhead smp.scheduler p) :
    smp'.current cpu ≠ p := by
  obtain ⟨p', c, c', hidle, hc, hc', hready, hlt⟩ := hahead
  obtain ⟨saved, scheduler, rings', t, hsaved, hconsistent, hreleased, ht', -, hcurrent, -⟩ :=
    h.timerHandler_spec cpu
  rw [ht, Option.some.injEq] at ht'
  subst ht'
  -- The task ahead does not run, so it is still ready after the release.
  have hcpu : p' ≠ smp.current cpu := by
    intro heq
    have hlocked := (h.locked p' c hc hidle).mpr ⟨cpu, heq.symm⟩
    rw [((Scheduler.ready_iff hc).mp hready).1] at hlocked
    exact Bool.noConfusion hlocked
  have hcontext : scheduler.context p' = some c := by
    rw [hreleased.context_ne hcpu, hsaved, if_neg hcpu, hc]
  have hready' : scheduler.ready p' = true :=
    (Scheduler.ready_iff hcontext).mpr ((Scheduler.ready_iff hc).mp hready)
  have hmem : p' ∈ rings' c.queueNum := hconsistent.covered p' c hcontext hidle
  obtain ⟨x, q, hfind, hx, hle⟩ := find?_ready_le schedulerQueues (by decide)
    (by cases c.queueNum <;> decide) hmem hready'
  -- So what is taken belongs to a queue before that of `p`.
  rw [hcurrent, Function.update_self, hfind, Option.getD_some]
  rintro rfl
  obtain ⟨cx, hcx, hqx⟩ := hconsistent.owner q x hx
  have hsavedx : ∃ c'', saved.context x = some c'' ∧ c''.queueNum = c'.queueNum := by
    rw [hsaved, hc']
    split
    · exact ⟨_, rfl, rfl⟩
    · exact ⟨c', rfl, rfl⟩
  obtain ⟨c'', hc'', hqueue⟩ := hsavedx
  rw [← hqueue, ← hreleased.queueNum hc'' hcx, hqx] at hlt
  omega

end Taken

/-! ## What the stages do -/

namespace CreateStage

variable {rounds : Nat} {c : CreateCall} {stage : CreateStage} {s t : ProcessKernel}

private theorem allocated_setProcess {p p' : ProcessPtr} {process : Process}
    (hp : s.processes p ≠ none) : (s.setProcess p' process).processes p ≠ none := by
  rw [ProcessKernel.setProcess_processes]
  by_cases hne : p = p'
  · simp [hne]
  · rwa [Function.update_of_ne hne]

/-- What a stage leaves alone: no process disappears, only `addTask` changes the scheduler,
and only `addTask` and `setTask` change the process of a node. -/
structure Frame (stage : CreateStage) (s t : ProcessKernel) : Prop where
  allocated : ∀ p, s.processes p ≠ none → t.processes p ≠ none
  scheduler : stage ≠ .addTask → t.scheduler = s.scheduler
  taskProcess : stage ≠ .addTask → stage ≠ .setTask → t.taskProcess = s.taskProcess

private theorem Frame.setProcess (p : ProcessPtr) (process : Process) :
    Frame stage s (s.setProcess p process) :=
  ⟨fun _ hp => allocated_setProcess hp, fun _ => rfl, fun _ _ => rfl⟩

private theorem Frame.modifyProcess {p : ProcessPtr} {f : Process → Process}
    (h : s.modifyProcess p f = some t) : Frame stage s t := by
  simp only [ProcessKernel.modifyProcess, Option.bind_eq_bind, Option.bind_eq_some_iff,
    Option.pure_def, Option.some.injEq] at h
  obtain ⟨contents, -, rfl⟩ := h
  exact Frame.setProcess p _

private theorem run_frame (h : stage.run rounds c s = some t) : Frame stage s t := by
  cases stage with
  | spinlock =>
      simp only [run, processSpinlock, Option.bind_eq_bind, Option.bind_eq_some_iff,
        Option.pure_def, Option.some.injEq] at h
      obtain ⟨contents, -, flags, -, rfl⟩ := h
      exact Frame.setProcess _ _
  | construct =>
      simp only [run, CreateCall.construct, Option.bind_eq_bind, Option.bind_eq_some_iff,
        Option.pure_def, Option.some.injEq] at h
      obtain ⟨⟨pml4, paging⟩, -, rfl⟩ := h
      exact ⟨fun _ hp => allocated_setProcess hp, fun _ => rfl, fun _ _ => rfl⟩
  | addTask =>
      simp only [run, CreateCall.addTask, Option.bind_eq_bind, Option.bind_eq_some_iff,
        Option.pure_def, Option.some.injEq] at h
      obtain ⟨stack, -, scheduler, -, rfl⟩ := h
      exact ⟨fun _ hp => hp, fun hne => absurd rfl hne, fun hne => absurd rfl hne⟩
  | setThread => exact Frame.modifyProcess h
  | setTask =>
      simp only [run, CreateCall.setTask, Option.bind_eq_bind, Option.bind_eq_some_iff,
        Option.pure_def, Option.some.injEq] at h
      obtain ⟨contents, -, rfl⟩ := h
      exact ⟨fun _ hp => hp, fun _ => rfl, fun _ hne => absurd rfl hne⟩
  | add =>
      simp only [run, processAdd, Option.bind_eq_bind, Option.bind_eq_some_iff, Option.pure_def,
        Option.some.injEq] at h
      obtain ⟨contents, -, last, -, rfl⟩ := h
      exact ⟨fun _ hp => hp, fun _ => rfl, fun _ _ => rfl⟩
  | unlock => exact Frame.modifyProcess h

private theorem run_addTask (h : addTask.run rounds c s = some t) :
    ∃ state, schedulerAddTask c.nodePtr state c.queueNum s.scheduler = some t.scheduler ∧
      t.taskProcess = Function.update s.taskProcess c.nodePtr .null := by
  simp only [run, CreateCall.addTask, Option.bind_eq_bind, Option.bind_eq_some_iff,
    Option.pure_def, Option.some.injEq] at h
  obtain ⟨stack, -, scheduler, hadd, rfl⟩ := h
  exact ⟨_, hadd, rfl⟩

private theorem run_construct (h : construct.run rounds c s = some t) :
    t.processes c.processPtr ≠ none := by
  simp only [run, CreateCall.construct, Option.bind_eq_bind, Option.bind_eq_some_iff,
    Option.pure_def, Option.some.injEq] at h
  obtain ⟨⟨pml4, paging⟩, -, rfl⟩ := h
  simp [ProcessKernel.setProcess_processes]

private theorem run_setThread (h : setThread.run rounds c s = some t) :
    ∃ contents, t.processes c.processPtr = some contents ∧
      contents.threadContexts = c.nodePtr := by
  simp only [run, CreateCall.setThread, ProcessKernel.modifyProcess, Option.bind_eq_bind,
    Option.bind_eq_some_iff, Option.pure_def, Option.some.injEq] at h
  obtain ⟨contents, -, rfl⟩ := h
  exact ⟨_, Function.update_self .., rfl⟩

private theorem run_setTask {contents : Process} (h : setTask.run rounds c s = some t)
    (hcontents : s.processes c.processPtr = some contents) :
    t.taskProcess = Function.update s.taskProcess contents.threadContexts c.processPtr := by
  simp only [run, CreateCall.setTask, hcontents, Option.bind_eq_bind, Option.bind_some,
    Option.pure_def, Option.some.injEq] at h
  rw [← h]

end CreateStage

/-! ## Runs -/

/-- The node of a process knows it, unless the process is just being created. -/
structure CreationInvariant {C : Type} (s : Creation C) : Prop where
  smp : ∃ rings frames, SmpInvariant s.smp rings frames
  constructed : ∀ c, s.creating = some (c, .addTask) → s.kernel.processes c.processPtr ≠ none
  thread : ∀ c, s.creating = some (c, .setTask) → ∃ contents,
    s.kernel.processes c.processPtr = some contents ∧ contents.threadContexts = c.nodePtr
  allocated : ∀ node process, s.owner node = some process →
    s.kernel.processes (.process process) ≠ none
  published : ∀ c process, s.Publishing c → s.owner c.nodePtr = some process →
    process = c.process
  owned : ∀ node process, s.owner node = some process → (∀ c, s.Publishing c → node ≠ c.nodePtr) →
    s.kernel.taskProcess node = .process process

namespace CreationInvariant

variable {C : Type} {s t : Creation C} {c : CreateCall} {stage : CreateStage}

private theorem not_publishing (h : s.creating = some (c, stage)) (hthread : stage ≠ .setThread)
    (htask : stage ≠ .setTask) (c' : CreateCall) : ¬s.Publishing c' := by
  rintro (hc | hc)
  · rw [h, Option.some.injEq, Prod.mk.injEq] at hc
    exact hthread hc.2
  · rw [h, Option.some.injEq, Prod.mk.injEq] at hc
    exact htask hc.2

private theorem smp_advance {rounds : Nat} {kernel : ProcessKernel} (h : CreationInvariant s)
    (hfresh : stage = .addTask → s.kernel.scheduler.nodes c.nodePtr = none)
    (hrun : stage.run rounds c s.kernel = some kernel) :
    ∃ rings frames, SmpInvariant ⟨kernel.scheduler, s.current, s.registers⟩ rings frames := by
  obtain ⟨rings, frames, hsmp⟩ := h.smp
  by_cases hstage : stage = .addTask
  · subst hstage
    obtain ⟨state, hadd, -⟩ := CreateStage.run_addTask hrun
    exact ⟨_, _, hsmp.addTask (hfresh rfl) hadd⟩
  · rw [(CreateStage.run_frame hrun).scheduler hstage]
    exact ⟨rings, frames, hsmp⟩

private theorem keep {kernel : ProcessKernel} {creating : Option (CreateCall × CreateStage)}
    (h : CreationInvariant s)
    (hsmp : ∃ rings frames, SmpInvariant ⟨kernel.scheduler, s.current, s.registers⟩ rings frames)
    (halloc : ∀ p, s.kernel.processes p ≠ none → kernel.processes p ≠ none)
    (htask : kernel.taskProcess = s.kernel.taskProcess)
    (hconstructed : ∀ c, creating = some (c, .addTask) → kernel.processes c.processPtr ≠ none)
    (hthread : ∀ c, creating = some (c, .setTask) → ∃ contents,
      kernel.processes c.processPtr = some contents ∧ contents.threadContexts = c.nodePtr)
    (hpublishing : ∀ c, { s with kernel, creating }.Publishing c ↔ s.Publishing c) :
    CreationInvariant { s with kernel, creating } := by
  apply CreationInvariant.mk hsmp hconstructed hthread
  · intro node process howner
    exact halloc _ (h.allocated node process howner)
  · intro c process hc howner
    exact h.published c process ((hpublishing c).mp hc) howner
  · intro node process howner hnode
    dsimp only
    rw [htask]
    apply h.owned node process howner
    intro c hc
    exact hnode c ((hpublishing c).mpr hc)

private theorem advance_addTask {rounds : Nat} {kernel : ProcessKernel} (h : CreationInvariant s)
    (hcreating : s.creating = some (c, .addTask))
    (hfresh : s.kernel.scheduler.nodes c.nodePtr = none)
    (hrun : CreateStage.addTask.run rounds c s.kernel = some kernel) :
    CreationInvariant { s with
      kernel
      creating := some (c, .setThread)
      owner := Function.update s.owner c.nodePtr (some c.process) } := by
  have hframe := CreateStage.run_frame hrun
  obtain ⟨state, hadd, htask⟩ := CreateStage.run_addTask hrun
  apply CreationInvariant.mk
  · exact h.smp_advance (fun _ => hfresh) hrun
  · intro c' hc'
    simp at hc'
  · intro c' hc'
    simp at hc'
  · intro node process howner
    dsimp only at howner ⊢
    by_cases hnode : node = c.nodePtr
    · rw [hnode, Function.update_self, Option.some.injEq] at howner
      rw [← howner]
      exact hframe.allocated _ (h.constructed c hcreating)
    · rw [Function.update_of_ne hnode] at howner
      exact hframe.allocated _ (h.allocated node process howner)
  · intro c' process hc' howner
    have heq : c = c' := by simpa [Creation.Publishing] using hc'
    dsimp only at howner
    rw [← heq, Function.update_self, Option.some.injEq] at howner
    rw [← heq, howner]
  · intro node process howner hnode
    have hne : node ≠ c.nodePtr := hnode c (.inl rfl)
    dsimp only at howner ⊢
    rw [Function.update_of_ne hne] at howner
    rw [htask, Function.update_of_ne hne]
    apply h.owned node process howner
    intro c' hc'
    exact absurd hc' (not_publishing hcreating (by decide) (by decide) c')

private theorem advance_setTask {rounds : Nat} {kernel : ProcessKernel} (h : CreationInvariant s)
    (hcreating : s.creating = some (c, .setTask))
    (hrun : CreateStage.setTask.run rounds c s.kernel = some kernel) :
    CreationInvariant { s with kernel, creating := some (c, .add) } := by
  have hframe := CreateStage.run_frame hrun
  obtain ⟨contents, hcontents, hthread⟩ := h.thread c hcreating
  have htask := CreateStage.run_setTask hrun hcontents
  rw [hthread] at htask
  apply CreationInvariant.mk
  · exact h.smp_advance (fun hstage => by simp at hstage) hrun
  · intro c' hc'
    simp at hc'
  · intro c' hc'
    simp at hc'
  · intro node process howner
    exact hframe.allocated _ (h.allocated node process howner)
  · intro c' process hc'
    simp [Creation.Publishing] at hc'
  · intro node process howner _
    dsimp only at howner ⊢
    rw [htask]
    by_cases hnode : node = c.nodePtr
    · rw [hnode] at howner ⊢
      rw [Function.update_self, h.published c process (.inr hcreating) howner]
      rfl
    · rw [Function.update_of_ne hnode]
      apply h.owned node process howner
      intro c' hc'
      have heq : c = c' := by simpa [Creation.Publishing, hcreating] using hc'
      rwa [← heq]

private theorem advance {rounds : Nat} {kernel : ProcessKernel} (h : CreationInvariant s)
    (hcreating : s.creating = some (c, stage))
    (hfresh : stage = .addTask → s.kernel.scheduler.nodes c.nodePtr = none)
    (hrun : stage.run rounds c s.kernel = some kernel) :
    CreationInvariant { s with
      kernel
      creating := stage.next.map fun next => (c, next)
      owner := Creation.advanceOwner c stage s.owner } := by
  have hframe := CreateStage.run_frame hrun
  have hsmp := h.smp_advance hfresh hrun
  cases stage with
  | addTask => exact h.advance_addTask hcreating (hfresh rfl) hrun
  | setTask => exact h.advance_setTask hcreating hrun
  | setThread =>
      apply h.keep hsmp hframe.allocated (hframe.taskProcess (by decide) (by decide))
      · simp [CreateStage.next]
      · intro c' hc'
        have heq : c = c' := by simpa [CreateStage.next] using hc'
        rw [← heq]
        exact CreateStage.run_setThread hrun
      · intro c'
        simp [Creation.Publishing, CreateStage.next, hcreating]
  | construct =>
      apply h.keep hsmp hframe.allocated (hframe.taskProcess (by decide) (by decide))
      · intro c' hc'
        have heq : c = c' := by simpa [CreateStage.next] using hc'
        rw [← heq]
        exact CreateStage.run_construct hrun
      · simp [CreateStage.next]
      · intro c'
        simp [Creation.Publishing, CreateStage.next, hcreating]
  | spinlock | add | unlock =>
      apply h.keep hsmp hframe.allocated (hframe.taskProcess (by decide) (by decide))
      · simp [CreateStage.next]
      · simp [CreateStage.next]
      · intro c'
        simp [Creation.Publishing, CreateStage.next, hcreating]

private theorem other {a : SmpAction C} {smp : Smp C} (h : CreationInvariant s)
    (hsmp : ∃ rings frames, SmpInvariant smp rings frames) :
    CreationInvariant ((s.clearTask a).withSmp smp) := by
  cases a with
  | timer | finish | compute =>
      exact ⟨hsmp, h.constructed, h.thread, h.allocated, h.published, h.owned⟩
  | addTask address state queueNum =>
      have howner : ∀ node process,
          Function.update s.owner (.task address) none node = some process →
          node ≠ .task address ∧ s.owner node = some process := by
        intro node process hnode
        by_cases hne : node = .task address
        · rw [hne, Function.update_self] at hnode
          exact absurd hnode (by simp)
        · rw [Function.update_of_ne hne] at hnode
          exact ⟨hne, hnode⟩
      apply CreationInvariant.mk
      · exact hsmp
      · exact h.constructed
      · exact h.thread
      · intro node process hnode
        exact h.allocated node process (howner node process hnode).2
      · intro c process hc hnode
        exact h.published c process hc (howner _ process hnode).2
      · intro node process hnode hpublishing
        have hold := howner node process hnode
        exact (Function.update_of_ne hold.1 ..).trans (h.owned node process hold.2 hpublishing)

private theorem step [DecidableEq C] {a : CreationAction C} (h : CreationInvariant s)
    (hstep : CreationStep s a t) : CreationInvariant t := by
  cases hstep with
  | call hcreating _ =>
      apply h.keep h.smp (fun _ hp => hp) rfl
      · simp
      · simp
      · intro c
        simp [Creation.Publishing, hcreating]
  | advance rounds hcreating hfresh hrun => exact h.advance hcreating hfresh hrun
  | other hsmp =>
      obtain ⟨rings, frames, hinvariant⟩ := h.smp
      obtain ⟨rings', hinvariant'⟩ := hinvariant.step hsmp
      exact h.other ⟨rings', _, hinvariant'⟩

private theorem takenWhole {cpu : C} (h : CreationInvariant s)
    (hnode : ∀ c, s.Publishing c → s.current cpu ≠ c.nodePtr) : s.TakenWhole cpu := by
  intro process howner
  have htask := h.owned _ process howner hnode
  obtain ⟨contents, hcontents⟩ := Option.ne_none_iff_exists'.mp (h.allocated _ process howner)
  refine ⟨htask, contents, hcontents, ?_⟩
  intro kernelPml4 hpml4
  rw [timerPml4, htask, if_neg (by simp), hcontents]
  exact congrArg some (if_neg hpml4)

end CreationInvariant

private theorem creationInit_invariant {C : Type} {pml4 schedulerIdle : BitVec 64} {paging : Paging}
    {taskProcess : NodePtr → ProcessPtr} {registers : C → SchedulerContextFrame} :
    CreationInvariant (creationInit pml4 paging schedulerIdle taskProcess registers) where
  smp := ⟨_, fun _ => (sIdleNode schedulerIdle).contextFrame, smpInit_invariant ..⟩
  constructed := by simp [creationInit]
  thread := by simp [creationInit]
  allocated := by simp [creationInit]
  published := by simp [creationInit]
  owned := by simp [creationInit]

section Runs

variable {C : Type} [DecidableEq C] {pml4 schedulerIdle : BitVec 64} {paging : Paging}
  {taskProcess : NodePtr → ProcessPtr} {registers : C → SchedulerContextFrame}
  {actions : List (CreationAction C)} {s t : Creation C} {c : CreateCall}

/-- The stages one after the other are `process_create_new`. -/
theorem createStep_run {kernel : ProcessKernel} (hcreating : s.creating = none)
    (hstep : CreateStep s.kernel c kernel) :
    Run (Guarded CreationStep Undisturbed) s (.call c :: List.replicate 7 .advance)
      { s with
        kernel
        creating := none
        owner := Function.update s.owner c.nodePtr (some c.process) } := by
  cases hstep with
  | intro rounds _ hprocess hnode hcreate =>
      simp only [processCreateNew, Option.bind_eq_bind, Option.bind_eq_some_iff] at hcreate
      obtain ⟨s₁, h₁, s₂, h₂, s₃, h₃, s₄, h₄, s₅, h₅, s₆, h₆, h₇⟩ := hcreate
      have hframe₁ : CreateStage.spinlock.Frame s.kernel s₁ := @CreateStage.run_frame rounds c _ _ _ h₁
      have hframe₂ : CreateStage.construct.Frame s₁ s₂ := @CreateStage.run_frame rounds c _ _ _ h₂
      have hfresh : s₂.scheduler.nodes c.nodePtr = none := by
        rw [hframe₂.scheduler (by decide), hframe₁.scheduler (by decide), hnode]
      apply Run.cons ⟨trivial, .call hcreating hprocess⟩
      apply Run.cons ⟨trivial, .advance rounds rfl (by simp) h₁⟩
      apply Run.cons ⟨trivial, .advance rounds rfl (by simp) h₂⟩
      apply Run.cons ⟨trivial, .advance rounds rfl (fun _ => hfresh) h₃⟩
      apply Run.cons ⟨trivial, .advance rounds rfl (by simp) h₄⟩
      apply Run.cons ⟨trivial, .advance rounds rfl (by simp) h₅⟩
      apply Run.cons ⟨trivial, .advance rounds rfl (by simp) h₆⟩
      apply Run.cons ⟨trivial, .advance rounds rfl (by simp) h₇⟩
      exact .nil _

/-- As long as every interrupt in which a new node does not know its process finds another task
ready in a queue of higher priority, the nodes that are taken know theirs. -/
theorem no_task_taken_half_built {cpu : C}
    (hrun : Run (Guarded CreationStep Undisturbed)
      (creationInit pml4 paging schedulerIdle taskProcess registers) actions s)
    (hstep : Guarded CreationStep Undisturbed s (.other (.timer cpu)) t) : t.TakenWhole cpu := by
  have hs : CreationInvariant s :=
    hrun.invariant (fun _ _ _ h hstep => h.step hstep.2) creationInit_invariant
  obtain ⟨hguard, hstep⟩ := hstep
  apply (hs.step hstep).takenWhole
  intro c hc
  cases hstep with
  | other hsmp =>
      cases hsmp with
      | timer htimer =>
          obtain ⟨rings, frames, hinvariant⟩ := hs.smp
          exact (hguard c hc).not_taken hinvariant htimer

def smallThread : SchedulerTaskInitialState := ⟨fun _ => 0, 0x400000, 0x1000, processRpl⟩

/-- A task of the priority queue is taken while the process is created, and the new node after
that. -/
theorem no_task_taken_half_built_two : ∃ s t : Creation Bool,
    Run (Guarded CreationStep Undisturbed) (creationInit 0x1000 zeroedPaging 0x100 (fun _ => .null)
      fun _ => initialFrame smallThread)
      [.other (.addTask 9 smallThread .priority), .call stackCall, .advance, .advance, .advance,
        .other (.timer false), .advance, .advance, .advance, .advance] s ∧
    Guarded CreationStep Undisturbed s (.other (.timer true)) t ∧
    t.current true = stackCall.nodePtr ∧ t.TakenWhole true := by
  have hrun : ∃ s t : Creation Bool, Run (Guarded CreationStep Undisturbed)
      (creationInit 0x1000 zeroedPaging 0x100 (fun _ => .null) fun _ => initialFrame smallThread)
      [.other (.addTask 9 smallThread .priority), .call stackCall, .advance, .advance, .advance,
        .other (.timer false), .advance, .advance, .advance, .advance] s ∧
      Guarded CreationStep Undisturbed s (.other (.timer true)) t ∧
      t.current true = stackCall.nodePtr := by
    refine ⟨_, _, .cons ⟨trivial, .other (.addTask rfl rfl)⟩ (.cons ⟨trivial, .call rfl rfl⟩
      (.cons ⟨trivial, .advance 0 rfl nofun rfl⟩ (.cons ⟨trivial, .advance 0 rfl nofun rfl⟩
      (.cons ⟨trivial, .advance 1 rfl (fun _ => rfl) rfl⟩
      (.cons ⟨WaitsAhead.undisturbed rfl ⟨.task 9, _, _, by decide, rfl, rfl, rfl, by decide⟩,
        .other (.timer rfl)⟩
      (.cons ⟨trivial, .advance 0 rfl nofun rfl⟩ (.cons ⟨trivial, .advance 0 rfl nofun rfl⟩
      (.cons ⟨trivial, .advance 0 rfl nofun rfl⟩ (.cons ⟨trivial, .advance 0 rfl nofun rfl⟩
      (.nil _)))))))))), ⟨undisturbed_of_none rfl, .other (.timer rfl)⟩, rfl⟩
  obtain ⟨s, t, hrun, hstep, hcurrent⟩ := hrun
  exact ⟨s, t, hrun, hstep, hcurrent, no_task_taken_half_built hrun hstep⟩

/-- A CPU takes the new node right after `scheduler_add_task` has returned. -/
theorem task_taken_half_built : ∃ s t : Creation Unit,
    Run CreationStep (creationInit 0x1000 zeroedPaging 0x100 (fun _ => .null)
      fun _ => initialFrame smallThread) [.call stackCall, .advance, .advance, .advance] s ∧
    CreationStep s (.other (.timer ())) t ∧
    t.current () = stackCall.nodePtr ∧ t.kernel.taskProcess stackCall.nodePtr = .null ∧
    ¬t.TakenWhole () := by
  refine ⟨_, _, .cons (.call rfl rfl) (.cons (.advance 0 rfl (by decide) rfl)
    (.cons (.advance 0 rfl (by decide) rfl) (.cons (.advance 1 rfl (fun _ => rfl) rfl) (.nil _)))),
    .other (.timer rfl), rfl, rfl, ?_⟩
  intro hwhole
  exact absurd (hwhole 1 rfl).1 (by decide)

end Runs

end VisualOS.Kernel
