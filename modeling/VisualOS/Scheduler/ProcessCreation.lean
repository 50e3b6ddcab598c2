import VisualOS.Scheduler.Process

/-!
# Which processes get created

All of `process_create_new` ends except for its search for the stack, which looks at the first
segment only: it takes that segment for the stack, or it stays there for good, with the lock of
the parent taken.
-/

namespace VisualOS.Kernel

/-- What the new task's stack should be. -/
def stackAddress (environment : List ProcessEnvironment) : BitVec 64 :=
  ((environment.find? fun e => e.flags.getLsbD processEnvironmentStack).map
    ProcessEnvironment.virtualAddress).getD 0

/-- There is no segment, or the first one is a stack. -/
def StackFirst (environment : List ProcessEnvironment) : Prop :=
  ∀ e ∈ environment.head?, e.flags.getLsbD processEnvironmentStack = true

/-- The state a call may count on: the parent is there, unlocked and with a finite list of
children, `malloc` returns new memory, and no other call of the scheduler is under way. -/
structure CreateReady (c : CreateCall) (s : ProcessKernel) : Prop where
  parent : ∃ contents l, s.processes c.parentPtr = some contents ∧
    contents.flags.getLsbD processFlagLocked = false ∧ Siblings s.processes contents.childList l
  process : s.processes c.processPtr = none
  node : s.scheduler.nodes c.nodePtr = none
  rings : ∃ rings, Consistent s.scheduler rings

/-- The call returns with the parent unlocked, and the new task starts on its stack. -/
def Creates (c : CreateCall) (s : ProcessKernel) : Prop :=
  ∃ rounds t, processCreateNew rounds c s = some t ∧
    (∃ contents, t.processes c.parentPtr = some contents ∧
      contents.flags.getLsbD processFlagLocked = false) ∧
    ∃ context, t.scheduler.context c.nodePtr = some context ∧
      context.contextFrame.rsp = stackAddress c.environment

/-- The loop does not leave a segment that is no stack, however often it turns. -/
theorem findStack_stays {e : ProcessEnvironment} (environment : List ProcessEnvironment)
    (he : e.flags.getLsbD processEnvironmentStack = false) (rounds : Nat) :
    findStack rounds (e :: environment) = none := by
  induction rounds with
  | zero => rfl
  | succ rounds ih =>
      have hflag : ¬(e.flags &&& shiftedOne processEnvironmentStack ≠ 0) := by
        rw [e.flag_iff (by decide), he]
        exact Bool.false_ne_true
      rw [findStack, if_neg hflag, ih]

/-- The loop ends, then in its first round, when the stack comes first. -/
theorem findStack_ends {environment : List ProcessEnvironment} (h : StackFirst environment)
    (rounds : Nat) : findStack (rounds + 1) environment = some (stackAddress environment) := by
  cases environment with
  | nil => rfl
  | cons e environment =>
      have hstack : e.flags.getLsbD processEnvironmentStack = true := h e rfl
      rw [findStack, if_pos ((e.flag_iff (by decide)).mpr hstack)]
      simp [stackAddress, hstack]

private theorem stackFirst_of_findStack {environment : List ProcessEnvironment} {rounds : Nat}
    {stack : BitVec 64} (h : findStack rounds environment = some stack) :
    StackFirst environment := by
  intro e he
  obtain ⟨rest, rfl⟩ := List.head?_eq_some_iff.mp he
  by_contra hstack
  rw [findStack_stays rest (by simpa using hstack)] at h
  cases h

/-! ## The walk along the children -/

section Siblings

variable {processes processes' : ProcessPtr → Option Process} {p : ProcessPtr} {l : List ProcessPtr}

private theorem Siblings.lastChild (h : Siblings processes p l) (rounds : Nat) :
    lastChild processes (l.length + rounds) p = some .null := by
  induction l generalizing p with
  | nil =>
      rw [show p = .null from h, Kernel.lastChild]
  | cons x l ih =>
      obtain ⟨-, hnull, contents, hcontents, hrest⟩ := h
      rw [List.length_cons, Nat.add_right_comm, Kernel.lastChild]
      · rw [hcontents]
        exact ih hrest
      · exact hnull

private theorem Siblings.congr (h : Siblings processes p l)
    (hnext : ∀ x contents, processes x = some contents →
      ∃ contents', processes' x = some contents' ∧ contents'.next = contents.next) :
    Siblings processes' p l := by
  induction l generalizing p with
  | nil => exact h
  | cons x l ih =>
      obtain ⟨hx, hnull, contents, hcontents, hrest⟩ := h
      obtain ⟨contents', hcontents', heq⟩ := hnext p contents hcontents
      exact ⟨hx, hnull, contents', hcontents', ih (heq ▸ hrest)⟩

end Siblings

section Create

variable {c : CreateCall} {s : ProcessKernel}

private theorem parentPtr_ne_null (c : CreateCall) : c.parentPtr ≠ .null := by
  rw [CreateCall.parentPtr, parentOrRoot]
  by_cases h : c.parent = .null
  · rw [if_pos h]
    decide
  · rwa [if_neg h]

private theorem parentOrRoot_parentPtr (c : CreateCall) : parentOrRoot c.parentPtr = c.parentPtr :=
  if_neg (parentPtr_ne_null c)

private theorem Creates.stackFirst (h : Creates c s) : StackFirst c.environment := by
  obtain ⟨rounds, t, ht, -⟩ := h
  simp only [processCreateNew, CreateCall.addTask, Option.bind_eq_bind,
    Option.bind_eq_some_iff] at ht
  obtain ⟨_, -, _, -, _, ⟨stack, hstack, -⟩, -⟩ := ht
  exact stackFirst_of_findStack hstack

/-- A process with its lock taken. -/
def Process.locked (contents : Process) : Process :=
  { contents with flags := contents.flags ||| BitVec.twoPow 64 processFlagLocked }

private theorem processSpinlock_free {p : ProcessPtr} {contents : Process}
    (hcontents : s.processes p = some contents)
    (hfree : contents.flags.getLsbD processFlagLocked = false) :
    processSpinlock p s = some (s.setProcess p contents.locked) := by
  rw [processSpinlock, hcontents]
  change (atomicSpinlock contents.flags processFlagLocked).bind _ = _
  rw [atomicSpinlock_free hfree]
  rfl

private theorem construct_returns (c : CreateCall) (s : ProcessKernel) :
    ∃ t process, c.construct s = some t ∧ t.scheduler = s.scheduler ∧
      t.processes = Function.update s.processes c.processPtr (some process) := by
  obtain ⟨pml4, paging, hpagemap⟩ := processPagemap_returns c.environment s.paging
  simp only [CreateCall.construct, hpagemap, Option.bind_eq_bind, Option.bind_some,
    Option.pure_def, Option.some.injEq]
  exact ⟨_, _, rfl, rfl, rfl⟩

private theorem addTask_returns (rounds : Nat) (hstack : StackFirst c.environment)
    (hnode : s.scheduler.nodes c.nodePtr = none) (hrings : ∃ rings, Consistent s.scheduler rings) :
    ∃ t, c.addTask (rounds + 1) s = some t ∧ t.processes = s.processes ∧
      ∃ context, t.scheduler.context c.nodePtr = some context ∧
        context.contextFrame.rsp = stackAddress c.environment := by
  obtain ⟨rings, hrings⟩ := hrings
  have hfresh : s.scheduler.context c.nodePtr = none := by
    rw [Scheduler.context, hnode]
    rfl
  obtain ⟨scheduler, hadd, -, hcontext⟩ := schedulerAddTask_spec hrings hfresh
    (by simp [CreateCall.nodePtr]) ⟨fun _ => 0, c.entry, stackAddress c.environment, processRpl⟩
    c.queueNum
  simp only [CreateCall.addTask, findStack_ends hstack, hadd, Option.bind_eq_bind,
    Option.bind_some, Option.pure_def, Option.some.injEq]
  refine ⟨_, rfl, rfl, _, (congrFun hcontext c.nodePtr).trans (Function.update_self ..), rfl⟩

private theorem setThread_setTask_returns {process : Process}
    (hprocess : s.processes c.processPtr = some process) :
    ∃ t u process', c.setThread s = some t ∧ c.setTask t = some u ∧
      u.scheduler = s.scheduler ∧
      u.processes = Function.update s.processes c.processPtr (some process') := by
  let t := s.setProcess c.processPtr { process with threadContexts := c.nodePtr }
  refine ⟨t, { t with taskProcess := Function.update t.taskProcess c.nodePtr c.processPtr }, _,
    ?_, ?_, rfl, rfl⟩
  · rw [CreateCall.setThread, ProcessKernel.modifyProcess, hprocess]
    rfl
  · rw [CreateCall.setTask, ProcessKernel.setProcess_processes, Function.update_self]
    rfl

private theorem processAdd_unlock_returns {contents : Process} {l : List ProcessPtr}
    (hparent : s.processes c.parentPtr = some contents.locked)
    (hfree : contents.flags.getLsbD processFlagLocked = false)
    (hsiblings : Siblings s.processes contents.childList l) :
    ∃ t u, processAdd (l.length + 1) c.parentPtr c.processPtr s = some t ∧
      processUnlock c.parentPtr t = some u ∧ u.scheduler = s.scheduler ∧
      u.processes c.parentPtr = some contents := by
  let t : ProcessKernel := { s with processesNum := (atomicAccumulate s.processesNum 1).2 }
  refine ⟨t, t.setProcess c.parentPtr contents, ?_, ?_, rfl, Function.update_self ..⟩
  · rw [processAdd, parentOrRoot_parentPtr, hparent]
    change (lastChild s.processes (l.length + 1) contents.childList).bind _ = _
    rw [hsiblings.lastChild]
    rfl
  · rw [processUnlock, ProcessKernel.modifyProcess, show t.processes = s.processes from rfl,
      hparent]
    change some (t.setProcess c.parentPtr { contents with
      flags := (atomicUnlock (contents.flags ||| BitVec.twoPow 64 processFlagLocked)
        processFlagLocked).2 }) = _
    rw [atomicUnlock_taken hfree]

private theorem CreateReady.creates (h : CreateReady c s) (hstack : StackFirst c.environment) :
    Creates c s := by
  obtain ⟨contents, l, hcontents, hfree, hsiblings⟩ := h.parent
  have hne : c.parentPtr ≠ c.processPtr := by
    intro heq
    rw [heq, h.process] at hcontents
    cases hcontents
  have h₁ := processSpinlock_free hcontents hfree
  obtain ⟨s₂, process, h₂, hscheduler₂, hprocesses₂⟩ :=
    construct_returns c (s.setProcess c.parentPtr contents.locked)
  obtain ⟨s₃, h₃, hprocesses₃, context, hcontext, hrsp⟩ := addTask_returns (s := s₂) l.length hstack
    (hscheduler₂ ▸ h.node) (hscheduler₂ ▸ h.rings)
  have hprocess : s₃.processes c.processPtr = some process := by
    rw [hprocesses₃, hprocesses₂, Function.update_self]
  obtain ⟨s₄, s₅, process', h₄, h₅, hscheduler₅, hprocesses₅⟩ := setThread_setTask_returns hprocess
  -- Apart from the new process only the parent's flags have changed so far.
  have hold : ∀ x, x ≠ c.processPtr →
      s₅.processes x = Function.update s.processes c.parentPtr (some contents.locked) x := by
    intro x hx
    rw [hprocesses₅, Function.update_of_ne hx, hprocesses₃, hprocesses₂, Function.update_of_ne hx,
      ProcessKernel.setProcess_processes]
  have hparent₅ : s₅.processes c.parentPtr = some contents.locked := by
    rw [hold _ hne, Function.update_self]
  have hsiblings₅ : Siblings s₅.processes contents.childList l := by
    apply hsiblings.congr
    intro x y hy
    rw [hold x (by rintro rfl; rw [h.process] at hy; cases hy)]
    by_cases hx : x = c.parentPtr
    · rw [hx, hcontents, Option.some.injEq] at hy
      rw [hx, Function.update_self, ← hy]
      exact ⟨_, rfl, rfl⟩
    · rw [Function.update_of_ne hx]
      exact ⟨y, hy, rfl⟩
  obtain ⟨s₆, s₇, h₆, h₇, hscheduler₇, hparent₇⟩ :=
    processAdd_unlock_returns hparent₅ hfree hsiblings₅
  refine ⟨l.length + 1, s₇, ?_, ⟨contents, hparent₇, hfree⟩, context, ?_, hrsp⟩
  · simp only [processCreateNew, h₁, h₂, h₃, h₄, h₅, h₆, h₇, Option.bind_eq_bind, Option.bind_some]
  · rw [hscheduler₇, hscheduler₅]
    exact hcontext

/-- The search for the stack decides. -/
theorem creates_iff (h : CreateReady c s) : Creates c s ↔ StackFirst c.environment := by
  constructor
  · exact Creates.stackFirst
  · exact h.creates

end Create

/-- After `process_init`, with empty queues. -/
def smallKernel : ProcessKernel :=
  processInit 0x1000 zeroedPaging (initialScheduler 0x100) fun _ => .null

/-- A program as one would load it: its code, and behind it its stack. -/
def codeCall : CreateCall :=
  { stackCall with
    environment := ⟨0x400000, 0x8000, shiftedOne 1, 1⟩ :: stackCall.environment }

private theorem smallKernel_ready (c : CreateCall) (hparent : c.parent = .null) :
    CreateReady c smallKernel where
  parent := by
    refine ⟨sRoot 0x1000, [], ?_, by decide, rfl⟩
    rw [CreateCall.parentPtr, hparent]
    rfl
  process := rfl
  node := rfl
  rings := ⟨_, initialScheduler_consistent 0x100⟩

theorem creates_iff_stackCall :
    CreateReady stackCall smallKernel ∧ Creates stackCall smallKernel := by
  have hready := smallKernel_ready stackCall rfl
  have hstack : StackFirst stackCall.environment := by
    intro e he
    obtain rfl := Option.some.inj he
    decide
  exact ⟨hready, (creates_iff hready).mpr hstack⟩

/-- The search stays at the code. -/
theorem not_creates_codeCall :
    CreateReady codeCall smallKernel ∧ ¬ Creates codeCall smallKernel := by
  refine ⟨smallKernel_ready codeCall rfl, ?_⟩
  intro h
  exact absurd (h.stackFirst _ rfl) (by decide)

end VisualOS.Kernel
