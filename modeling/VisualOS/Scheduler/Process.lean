import VisualOS.Framework.Transition
import VisualOS.Scheduler.Calls
import VisualOS.Scheduler.ProcessPagemap

/-!
# Creating processes

`process_create_new` stage by stage, over a heap of processes, and the tree of processes that
`child_list` and `next` are there to hold.  `_process_add` walks to the end of the parent's
children and counts the new process, but stores it nowhere.
-/

namespace VisualOS.Kernel

open Framework

/-- Pointers to `struct Process`: `NULL`, `&s_root`, or what `malloc` returned. -/
inductive ProcessPtr
  | null
  | root
  | process (address : Nat)
  deriving DecidableEq, Repr

/-- `entry` and `environment` are never used.  `thread_contexts` points into a node. -/
structure Process where
  pid : BitVec 64
  pml4 : BitVec 64
  flags : BitVec 64
  threadContexts : NodePtr
  parent : ProcessPtr
  next : ProcessPtr
  childList : ProcessPtr

/-- `taskProcess` is the field `context.task.process` of every node, which `scheduler.c`
clears in a new node and does not use. -/
structure ProcessKernel where
  processes : ProcessPtr → Option Process
  processesNum : BitVec 64
  pidAccumulator : BitVec 64
  paging : Paging
  scheduler : Scheduler
  taskProcess : NodePtr → ProcessPtr

/-- `PROCESS_FLAG_LOCKED`. -/
def processFlagLocked : Nat := 0

/-- `PROCESS_ENVIRONMENT_STACK`. -/
def processEnvironmentStack : Nat := 4

/-- `PROCESS_RPL`. -/
def processRpl : BitVec 8 := 3

namespace ProcessKernel

def setProcess (p : ProcessPtr) (process : Process) (s : ProcessKernel) : ProcessKernel :=
  { s with processes := Function.update s.processes p (some process) }

theorem setProcess_processes (s : ProcessKernel) (p : ProcessPtr) (process : Process) :
    (s.setProcess p process).processes = Function.update s.processes p (some process) := rfl

/-- A store through `p`. -/
def modifyProcess (p : ProcessPtr) (f : Process → Process) (s : ProcessKernel) :
    Option ProcessKernel := do
  let process ← s.processes p
  return s.setProcess p (f process)

end ProcessKernel

/-- A null parent stands for `s_root`. -/
def parentOrRoot (parent : ProcessPtr) : ProcessPtr := if parent = .null then .root else parent

/-- A call of `process_create_new`.  `process` and `node` are what `malloc` returns in it and in
`scheduler_add_task`. -/
structure CreateCall where
  parent : ProcessPtr
  environment : List ProcessEnvironment
  entry : BitVec 64
  queueNum : SchedulerQueueNumber
  process : Nat
  node : Nat

def processSpinlock (process : ProcessPtr) (s : ProcessKernel) : Option ProcessKernel := do
  let contents ← s.processes process
  let flags ← atomicSpinlock contents.flags processFlagLocked
  return s.setProcess process { contents with flags }

def processUnlock (process : ProcessPtr) (s : ProcessKernel) : Option ProcessKernel :=
  s.modifyProcess process fun contents =>
    { contents with flags := (atomicUnlock contents.flags processFlagLocked).2 }

/-- The walk of `_process_add` from `last` on, in at most `rounds` rounds. -/
def lastChild (processes : ProcessPtr → Option Process) : Nat → ProcessPtr → Option ProcessPtr
  | _, .null => some .null
  | 0, _ => none
  | rounds + 1, last => do
      let contents ← processes last
      lastChild processes rounds contents.next

/-- `process` is not used, as in the source. -/
def processAdd (rounds : Nat) (parent _process : ProcessPtr) (s : ProcessKernel) :
    Option ProcessKernel := do
  let contents ← s.processes (parentOrRoot parent)
  let _ ← lastChild s.processes rounds contents.childList
  return { s with processesNum := (atomicAccumulate s.processesNum 1).2 }

/-- The loop that looks for the stack, in at most `rounds` rounds.  `current_environment` is the
same in every round. -/
def findStack : Nat → List ProcessEnvironment → Option (BitVec 64)
  | _, [] => some 0
  | 0, _ => none
  | rounds + 1, current :: rest =>
      if current.flags &&& shiftedOne processEnvironmentStack ≠ 0 then
        some current.virtualAddress
      else findStack rounds (current :: rest)

namespace CreateCall

def parentPtr (c : CreateCall) : ProcessPtr := parentOrRoot c.parent

def processPtr (c : CreateCall) : ProcessPtr := .process c.process

def nodePtr (c : CreateCall) : NodePtr := .task c.node

/-- The assignment to `*process`. -/
def construct (c : CreateCall) (s : ProcessKernel) : Option ProcessKernel := do
  let (pid, pidAccumulator) := atomicAccumulate s.pidAccumulator 1
  let (pml4, paging) ← processPagemap c.environment s.paging
  return { s with pidAccumulator, paging }.setProcess c.processPtr
    ⟨pid, pml4, 0, .null, c.parentPtr, .null, .null⟩

/-- Finding the stack and the call of `scheduler_add_task`. -/
def addTask (rounds : Nat) (c : CreateCall) (s : ProcessKernel) : Option ProcessKernel := do
  let stack ← findStack rounds c.environment
  let scheduler ← schedulerAddTask c.nodePtr ⟨fun _ => 0, c.entry, stack, processRpl⟩ c.queueNum
    s.scheduler
  return { s with scheduler, taskProcess := Function.update s.taskProcess c.nodePtr .null }

/-- The store to `process->thread_contexts`. -/
def setThread (c : CreateCall) (s : ProcessKernel) : Option ProcessKernel :=
  s.modifyProcess c.processPtr fun contents => { contents with threadContexts := c.nodePtr }

/-- The store to `process->thread_contexts->task.process`. -/
def setTask (c : CreateCall) (s : ProcessKernel) : Option ProcessKernel := do
  let contents ← s.processes c.processPtr
  return { s with
    taskProcess := Function.update s.taskProcess contents.threadContexts c.processPtr }

end CreateCall

def processCreateNew (rounds : Nat) (c : CreateCall) (s : ProcessKernel) :
    Option ProcessKernel := do
  let s ← processSpinlock c.parentPtr s
  let s ← c.construct s
  let s ← c.addTask rounds s
  let s ← c.setThread s
  let s ← c.setTask s
  let s ← processAdd rounds c.parentPtr c.processPtr s
  processUnlock c.parentPtr s

/-- `s_root` after `process_init`. -/
def sRoot (pml4 : BitVec 64) : Process := ⟨0, pml4, 0, .null, .null, .null, .null⟩

/-- After `process_init`, with no process created. -/
def processInit (pml4 : BitVec 64) (paging : Paging) (scheduler : Scheduler)
    (taskProcess : NodePtr → ProcessPtr) : ProcessKernel where
  processes p := if p = .root then some (sRoot pml4) else none
  processesNum := 0
  pidAccumulator := 1
  paging
  scheduler
  taskProcess

/-- A call that returns, with a parent that is `NULL` or was created before. -/
inductive CreateStep (s : ProcessKernel) (c : CreateCall) (t : ProcessKernel) : Prop
  | intro (rounds : Nat) :
      c.parent = .null ∨ (∃ address, c.parent = .process address) ∧ s.processes c.parent ≠ none →
      s.processes c.processPtr = none → s.scheduler.nodes c.nodePtr = none →
      processCreateNew rounds c s = some t → CreateStep s c t

/-! ## The tree -/

/-- Following `next` from `p` visits the processes of the list and ends in `NULL`. -/
def Siblings (processes : ProcessPtr → Option Process) : ProcessPtr → List ProcessPtr → Prop
  | p, [] => p = .null
  | p, x :: l => p = x ∧ p ≠ .null ∧ ∃ contents, processes p = some contents ∧
      Siblings processes contents.next l

/-- What the list of children of `p` should be: those created with this parent, in order. -/
def childrenOf (calls : List CreateCall) (p : ProcessPtr) : List ProcessPtr :=
  (calls.filter fun c => c.parentPtr = p).map CreateCall.processPtr

/-- The processes that can be found from `s_root`. -/
inductive InTree (processes : ProcessPtr → Option Process) : ProcessPtr → Prop
  | root : InTree processes .root
  | child {p p' : ProcessPtr} {contents : Process} {l : List ProcessPtr} :
      InTree processes p → processes p = some contents →
      Siblings processes contents.childList l → p' ∈ l → InTree processes p'

/-- The created processes are distinct, so each is once in its parent's list and in no other. -/
structure TreeSound (s : ProcessKernel) (calls : List CreateCall) : Prop where
  children : ∀ p contents, s.processes p = some contents →
    Siblings s.processes contents.childList (childrenOf calls p)
  count : s.processesNum.toNat = {p | p ≠ .root ∧ InTree s.processes p}.ncard

/-- No process has children. -/
structure Childless (s : ProcessKernel) : Prop where
  root : ∃ contents, s.processes .root = some contents
  childList : ∀ p contents, s.processes p = some contents → contents.childList = .null

namespace Childless

variable {s t : ProcessKernel} {p : ProcessPtr} {c : CreateCall} {rounds : Nat}

private theorem congr (h : Childless s) (hprocesses : t.processes = s.processes) : Childless t := by
  apply Childless.mk
  · rw [hprocesses]
    exact h.root
  · rw [hprocesses]
    exact h.childList

private theorem setProcess {process : Process} (h : Childless s)
    (hchild : process.childList = .null) : Childless (s.setProcess p process) := by
  apply Childless.mk
  · rw [ProcessKernel.setProcess_processes]
    by_cases hp : .root = p
    · exact ⟨process, by rw [hp, Function.update_self]⟩
    · rw [Function.update_of_ne hp]
      exact h.root
  · intro p' contents hcontents
    rw [ProcessKernel.setProcess_processes] at hcontents
    by_cases hp : p' = p
    · rw [hp, Function.update_self, Option.some.injEq] at hcontents
      rw [← hcontents, hchild]
    · rw [Function.update_of_ne hp] at hcontents
      exact h.childList p' contents hcontents

private theorem modifyProcess {f : Process → Process} (h : Childless s)
    (hf : ∀ contents, (f contents).childList = contents.childList)
    (ht : s.modifyProcess p f = some t) : Childless t := by
  simp only [ProcessKernel.modifyProcess, Option.bind_eq_bind, Option.bind_eq_some_iff,
    Option.pure_def, Option.some.injEq] at ht
  obtain ⟨contents, hcontents, rfl⟩ := ht
  apply h.setProcess
  rw [hf, h.childList p contents hcontents]

private theorem spinlock (h : Childless s) (ht : processSpinlock p s = some t) : Childless t := by
  simp only [processSpinlock, Option.bind_eq_bind, Option.bind_eq_some_iff, Option.pure_def,
    Option.some.injEq] at ht
  obtain ⟨contents, hcontents, flags, -, rfl⟩ := ht
  exact h.setProcess (h.childList p contents hcontents)

private theorem unlock (h : Childless s) (ht : processUnlock p s = some t) : Childless t := by
  rw [processUnlock] at ht
  apply h.modifyProcess _ ht
  intro contents
  rfl

private theorem construct (h : Childless s) (ht : c.construct s = some t) : Childless t := by
  simp only [CreateCall.construct, Option.bind_eq_bind, Option.bind_eq_some_iff, Option.pure_def,
    Option.some.injEq] at ht
  obtain ⟨⟨pml4, paging⟩, -, rfl⟩ := ht
  apply Childless.setProcess
  · exact h.congr rfl
  · rfl

private theorem addTask (h : Childless s) (ht : c.addTask rounds s = some t) : Childless t := by
  simp only [CreateCall.addTask, Option.bind_eq_bind, Option.bind_eq_some_iff, Option.pure_def,
    Option.some.injEq] at ht
  obtain ⟨stack, -, scheduler, -, rfl⟩ := ht
  exact h.congr rfl

private theorem setThread (h : Childless s) (ht : c.setThread s = some t) : Childless t := by
  rw [CreateCall.setThread] at ht
  apply h.modifyProcess _ ht
  intro contents
  rfl

private theorem setTask (h : Childless s) (ht : c.setTask s = some t) : Childless t := by
  simp only [CreateCall.setTask, Option.bind_eq_bind, Option.bind_eq_some_iff, Option.pure_def,
    Option.some.injEq] at ht
  obtain ⟨contents, -, rfl⟩ := ht
  exact h.congr rfl

private theorem processAdd {process : ProcessPtr} (h : Childless s)
    (ht : processAdd rounds p process s = some t) : Childless t := by
  simp only [Kernel.processAdd, Option.bind_eq_bind, Option.bind_eq_some_iff, Option.pure_def,
    Option.some.injEq] at ht
  obtain ⟨contents, -, last, -, rfl⟩ := ht
  exact h.congr rfl

private theorem processCreateNew (h : Childless s) (ht : processCreateNew rounds c s = some t) :
    Childless t := by
  simp only [Kernel.processCreateNew, Option.bind_eq_bind, Option.bind_eq_some_iff] at ht
  obtain ⟨s₁, h₁, s₂, h₂, s₃, h₃, s₄, h₄, s₅, h₅, s₆, h₆, h₇⟩ := ht
  have hthread : Childless s₄ := (((h.spinlock h₁).construct h₂).addTask h₃).setThread h₄
  exact ((hthread.setTask h₅).processAdd h₆).unlock h₇

private theorem step (h : Childless s) (hstep : CreateStep s c t) : Childless t := by
  cases hstep with
  | intro rounds _ _ _ ht => exact h.processCreateNew ht

private theorem siblings (h : Childless s) {contents : Process} {l : List ProcessPtr}
    (hcontents : s.processes p = some contents)
    (hsiblings : Siblings s.processes contents.childList l) : l = [] := by
  rw [h.childList p contents hcontents] at hsiblings
  cases l with
  | nil => rfl
  | cons x l => exact absurd rfl hsiblings.2.1

private theorem inTree (h : Childless s) (hp : InTree s.processes p) : p = .root := by
  cases hp with
  | root => rfl
  | child _ hcontents hsiblings hmem =>
      rw [h.siblings hcontents hsiblings] at hmem
      exact absurd hmem List.not_mem_nil

private theorem not_treeSound {calls : List CreateCall} (h : Childless s) (hc : c ∈ calls)
    (hparent : c.parentPtr = .root) : ¬TreeSound s calls := by
  intro hsound
  obtain ⟨contents, hcontents⟩ := h.root
  have hchildren := h.siblings hcontents (hsound.children .root contents hcontents)
  have hmem : c.processPtr ∈ childrenOf calls .root := by
    apply List.mem_map_of_mem
    rw [List.mem_filter]
    exact ⟨hc, by simpa using hparent⟩
  rw [hchildren] at hmem
  exact absurd hmem List.not_mem_nil

end Childless

section Runs

variable {pml4 : BitVec 64} {paging : Paging} {scheduler : Scheduler}
  {taskProcess : NodePtr → ProcessPtr} {calls : List CreateCall} {s : ProcessKernel}

private theorem processInit_childless :
    Childless (processInit pml4 paging scheduler taskProcess) := by
  apply Childless.mk
  · exact ⟨sRoot pml4, rfl⟩
  · intro p contents hcontents
    simp only [processInit, Option.ite_none_right_eq_some, Option.some.injEq] at hcontents
    rw [← hcontents.2]
    rfl

private theorem processInit_treeSound :
    TreeSound (processInit pml4 paging scheduler taskProcess) [] := by
  apply TreeSound.mk
  · intro p contents hcontents
    exact processInit_childless.childList p contents hcontents
  · have hempty : {p | p ≠ .root ∧
        InTree (processInit pml4 paging scheduler taskProcess).processes p} = ∅ := by
      apply Set.eq_empty_of_forall_notMem
      intro p hp
      exact hp.1 (processInit_childless.inTree hp.2)
    rw [hempty, Set.ncard_empty]
    rfl

private theorem createRun_childless
    (hrun : Run CreateStep (processInit pml4 paging scheduler taskProcess) calls s) :
    Childless s :=
  hrun.invariant (fun _ _ _ h hstep => h.step hstep) processInit_childless

private theorem createStep_parentPtr {c : CreateCall}
    (hstep : CreateStep (processInit pml4 paging scheduler taskProcess) c s) :
    c.parentPtr = .root := by
  cases hstep with
  | intro _ hparent =>
      rcases hparent with hnull | ⟨⟨address, haddress⟩, halloc⟩
      · simp [CreateCall.parentPtr, parentOrRoot, hnull]
      · simp [haddress, processInit] at halloc

/-- The tree is right only as long as there is nothing in it. -/
theorem process_tree_iff
    (hrun : Run CreateStep (processInit pml4 paging scheduler taskProcess) calls s) :
    TreeSound s calls ↔ calls = [] := by
  have hchildless := createRun_childless hrun
  cases hrun with
  | nil => simp [processInit_treeSound]
  | @cons _ _ _ c calls hstep _ =>
      have hlost : ¬TreeSound s (c :: calls) :=
        hchildless.not_treeSound List.mem_cons_self (createStep_parentPtr hstep)
      simp [hlost]

/-- The environment is one stack page. -/
def stackCall : CreateCall where
  parent := .null
  environment := [⟨0x1000, 0x9000, shiftedOne processEnvironmentStack, 1⟩]
  entry := 0x400000
  queueNum := .regular
  process := 1
  node := 2

private theorem exists_stackRun : ∃ s, Run CreateStep
    (processInit 0x1000 zeroedPaging (initialScheduler 0x100) fun _ => .null) [stackCall] s :=
  ⟨_, .cons (.intro 1 (.inl rfl) rfl rfl rfl) (.nil _)⟩

theorem process_tree_iff_one :
    TreeSound (processInit 0x1000 zeroedPaging (initialScheduler 0x100) fun _ => .null) [] ∧
      ∃ s, Run CreateStep
        (processInit 0x1000 zeroedPaging (initialScheduler 0x100) fun _ => .null) [stackCall] s ∧
        ¬TreeSound s [stackCall] := by
  obtain ⟨s, hrun⟩ := exists_stackRun
  refine ⟨(process_tree_iff (.nil _)).mpr rfl, s, hrun, ?_⟩
  rw [process_tree_iff hrun]
  exact List.cons_ne_nil stackCall []

/-- After one call the new process is in no list, and one process is counted. -/
theorem process_tree_broken : ∃ s, Run CreateStep
    (processInit 0x1000 zeroedPaging (initialScheduler 0x100) fun _ => .null) [stackCall] s ∧
      ¬TreeSound s [stackCall] := by
  obtain ⟨s, hrun⟩ := exists_stackRun
  exact ⟨s, hrun, (createRun_childless hrun).not_treeSound (List.mem_singleton_self _) rfl⟩

end Runs

end VisualOS.Kernel
