import VisualOS.Framework.Transition
import VisualOS.Scheduler.Calls

/-!
# Timer interrupts

`timer_handler` of `timer.asm` on any number of CPUs: it saves the registers into the node
the CPU runs, asks for the next one and loads its frame.  Between interrupts tasks change
registers, mark themselves finished, and add tasks.
-/

namespace VisualOS.Kernel

open Framework

/-- `C` are the CPUs.  `current` is what a CPU's timer stack holds in `self`. -/
structure Smp (C : Type) where
  scheduler : Scheduler
  current : C → NodePtr
  registers : C → SchedulerContextFrame

/-- The copy loop of `timer_handler`, which is skipped for a null `self`. -/
def saveContext (current : NodePtr) (registers : SchedulerContextFrame) (s : Scheduler) :
    Option Scheduler :=
  if current = .null then some s
  else s.modifyNode current fun node => { node with contextFrame := registers }

section Machine

variable {C : Type}

def timerHandler [DecidableEq C] (cpu : C) (s : Smp C) : Option (Smp C) := do
  let scheduler ← saveContext (s.current cpu) (s.registers cpu) s.scheduler
  let (next, _, scheduler) ← schedulerNextTask (s.current cpu) scheduler
  if next = .null then return { s with scheduler }
  else do
    let node ← scheduler.nodes next
    return { scheduler
             current := Function.update s.current cpu next
             registers := Function.update s.registers cpu node.contextFrame }

/-- After `scheduler_init`, with no CPU in the scheduler yet. -/
def smpInit (schedulerIdle : BitVec 64) (registers : C → SchedulerContextFrame) : Smp C where
  scheduler := initialScheduler schedulerIdle
  current _ := .null
  registers

inductive SmpAction (C : Type)
  | addTask (address : Nat) (state : SchedulerTaskInitialState) (queueNum : SchedulerQueueNumber)
  | timer (cpu : C)
  | finish (cpu : C)
  | compute (cpu : C) (registers : SchedulerContextFrame)

inductive SmpStep [DecidableEq C] : Smp C → SmpAction C → Smp C → Prop
  | addTask {s : Smp C} {scheduler : Scheduler} {address : Nat}
      {state : SchedulerTaskInitialState} {queueNum : SchedulerQueueNumber} :
      s.scheduler.nodes (.task address) = none →
      schedulerAddTask (.task address) state queueNum s.scheduler = some scheduler →
      SmpStep s (.addTask address state queueNum) { s with scheduler }
  | timer {s t : Smp C} {cpu : C} : timerHandler cpu s = some t → SmpStep s (.timer cpu) t
  | finish {s : Smp C} {scheduler : Scheduler} {cpu : C} {address : Nat} :
      s.current cpu = .task address →
      s.scheduler.modifyNode (.task address) (fun node =>
        { node with flags := node.flags ||| BitVec.twoPow 64 schedulerFlagFinished }) =
        some scheduler →
      SmpStep s (.finish cpu) { s with scheduler }
  | compute (s : Smp C) (cpu : C) (registers : SchedulerContextFrame) :
      SmpStep s (.compute cpu registers)
        { s with registers := Function.update s.registers cpu registers }

/-- Which task runs where.  `frames` is what each task should continue with. -/
structure SmpInvariant (s : Smp C) (rings : Rings) (frames : NodePtr → SchedulerContextFrame) :
    Prop where
  consistent : Consistent s.scheduler rings
  current : ∀ cpu, s.current cpu = .null ∨ s.current cpu = .idle ∨
    ∃ q, s.current cpu ∈ rings q
  locked : ∀ p c, s.scheduler.context p = some c → p ≠ .idle →
    (c.locked = true ↔ ∃ cpu, s.current cpu = p)
  distinct : ∀ cpu cpu', s.current cpu = s.current cpu' → s.current cpu ≠ .null →
    s.current cpu ≠ .idle → cpu = cpu'
  frame : ∀ p c, s.scheduler.context p = some c → p ≠ .idle → c.locked = false →
    c.contextFrame = frames p

namespace SmpInvariant

variable {s t : Smp C} {rings : Rings} {frames : NodePtr → SchedulerContextFrame} {cpu : C}

theorem exists_queue (h : SmpInvariant s rings frames) (cpu : C) :
    ∃ q, s.current cpu = .null ∨ s.current cpu = .idle ∨ s.current cpu ∈ rings q := by
  rcases h.current cpu with hcur | hcur | ⟨q, hcur⟩
  · exact ⟨.priority, .inl hcur⟩
  · exact ⟨.priority, .inr (.inl hcur)⟩
  · exact ⟨q, .inr (.inr hcur)⟩

theorem addTask {scheduler : Scheduler} {address : Nat} {state : SchedulerTaskInitialState}
    {queueNum : SchedulerQueueNumber} (h : SmpInvariant s rings frames)
    (hfresh : s.scheduler.nodes (.task address) = none)
    (hadd : schedulerAddTask (.task address) state queueNum s.scheduler = some scheduler) :
    SmpInvariant { s with scheduler }
      (Function.update rings queueNum (rings queueNum ++ [.task address]))
      (Function.update frames (.task address) (initialFrame state)) := by
  obtain ⟨hnew, hconsistent, hcontext⟩ := h.consistent.addTask hfresh hadd
  have hidle : ∀ cpu, s.current cpu ≠ .task address := by
    intro cpu heq
    rcases h.current cpu with hcur | hcur | ⟨q, hcur⟩
    · simp [hcur] at heq
    · simp [hcur] at heq
    · exact hnew q (heq ▸ hcur)
  refine ⟨hconsistent, ?_, ?_, h.distinct, ?_⟩
  · intro cpu
    rcases h.current cpu with hcur | hcur | ⟨q, hcur⟩
    · exact .inl hcur
    · exact .inr (.inl hcur)
    · refine .inr (.inr ⟨q, ?_⟩)
      rcases eq_or_ne q queueNum with rfl | hne
      · rw [Function.update_self]
        exact List.mem_append_left _ hcur
      · rwa [Function.update_of_ne hne]
  · intro p c hc hp
    rw [hcontext] at hc
    rcases Scheduler.update_context_cases hc with ⟨rfl, rfl⟩ | ⟨hne, hc⟩
    · simp [TaskContext.locked, hidle]
    · exact h.locked p c hc hp
  · intro p c hc hp hlocked
    rw [hcontext] at hc
    rcases Scheduler.update_context_cases hc with ⟨rfl, rfl⟩ | ⟨hne, hc⟩
    · rw [Function.update_self]
    · rw [Function.update_of_ne hne]
      exact h.frame p c hc hp hlocked

private theorem finish {scheduler : Scheduler} {address : Nat} (h : SmpInvariant s rings frames)
    (hfinish : s.scheduler.modifyNode (.task address) (fun node =>
      { node with flags := node.flags ||| BitVec.twoPow 64 schedulerFlagFinished }) =
      some scheduler) :
    SmpInvariant { s with scheduler } rings frames := by
  obtain ⟨c₀, hc₀, hconsistent, hcontext⟩ := h.consistent.finish hfinish
  refine ⟨hconsistent, h.current, ?_, h.distinct, ?_⟩
  · intro p c hc hp
    rw [hcontext] at hc
    rcases Scheduler.update_context_cases hc with ⟨rfl, rfl⟩ | ⟨-, hc⟩
    · rw [TaskContext.finish_locked]
      exact h.locked _ c₀ hc₀ hp
    · exact h.locked p c hc hp
  · intro p c hc hp hlocked
    rw [hcontext] at hc
    rcases Scheduler.update_context_cases hc with ⟨rfl, rfl⟩ | ⟨-, hc⟩
    · rw [TaskContext.finish_locked] at hlocked
      rw [TaskContext.finish_contextFrame]
      exact h.frame _ c₀ hc₀ hp hlocked
    · exact h.frame p c hc hp hlocked

theorem exists_currentNode (h : SmpInvariant s rings frames) {cpu : C}
    (hnull : s.current cpu ≠ .null) : ∃ node, s.scheduler.nodes (s.current cpu) = some node := by
  rcases h.current cpu with hcur | hcur | ⟨q, hcur⟩
  · exact absurd hcur hnull
  · obtain ⟨c, hc⟩ := h.consistent.idle
    obtain ⟨node, hnode, -⟩ := Scheduler.exists_node hc
    exact ⟨node, hcur ▸ hnode⟩
  · obtain ⟨node, hnode, -⟩ := h.consistent.allocated hcur
    exact ⟨node, hnode⟩

theorem save (h : SmpInvariant s rings frames) (cpu : C) :
    ∃ scheduler, saveContext (s.current cpu) (s.registers cpu) s.scheduler = some scheduler ∧
      Consistent scheduler rings ∧
      ∀ p, scheduler.context p = if p = s.current cpu then
        (s.scheduler.context p).map fun c => { c with contextFrame := s.registers cpu }
        else s.scheduler.context p := by
  rw [saveContext]
  by_cases hnull : s.current cpu = .null
  · refine ⟨s.scheduler, if_pos hnull, h.consistent, ?_⟩
    intro p
    split
    · rename_i hp
      rw [hp, hnull, h.consistent.context_null]
      rfl
    · rfl
  · obtain ⟨node, hnode⟩ := h.exists_currentNode hnull
    rw [if_neg hnull, Scheduler.modifyNode_eq _ hnode]
    refine ⟨_, rfl, h.consistent.setNode hnode rfl rfl rfl, ?_⟩
    intro p
    rw [Scheduler.setNode_context]
    rcases eq_or_ne p (s.current cpu) with rfl | hne
    · rw [Function.update_self, if_pos rfl, Scheduler.context_of_nodes hnode]
      rfl
    · rw [Function.update_of_ne hne, if_neg hne]

section Switch

variable [DecidableEq C]

private theorem exists_update_eq_iff {current : C → NodePtr} {p p' : NodePtr}
    (hleft : current cpu ≠ p) (htaken : p' ≠ p) :
    (∃ cpu', Function.update current cpu p' cpu' = p) ↔ ∃ cpu', current cpu' = p := by
  constructor
  · rintro ⟨cpu', heq⟩
    rcases eq_or_ne cpu' cpu with rfl | hne
    · rw [Function.update_self] at heq
      exact absurd heq htaken
    · rw [Function.update_of_ne hne] at heq
      exact ⟨cpu', heq⟩
  · rintro ⟨cpu', rfl⟩
    have hne : cpu' ≠ cpu := fun heq => hleft (heq ▸ rfl)
    exact ⟨cpu', Function.update_of_ne hne ..⟩

private theorem distinct_update {p : NodePtr} {cpu₁ cpu₂ : C} (h : SmpInvariant s rings frames)
    (hp : p = .null ∨ p = .idle)
    (heq : Function.update s.current cpu p cpu₁ = Function.update s.current cpu p cpu₂)
    (hnull : Function.update s.current cpu p cpu₁ ≠ .null)
    (hidle : Function.update s.current cpu p cpu₁ ≠ .idle) : cpu₁ = cpu₂ := by
  have hne {cpu' : C} (hnull : Function.update s.current cpu p cpu' ≠ .null)
      (hidle : Function.update s.current cpu p cpu' ≠ .idle) : cpu' ≠ cpu := by
    rintro rfl
    rw [Function.update_self] at hnull hidle
    exact hp.elim hnull hidle
  have h₁ := hne hnull hidle
  have h₂ := hne (heq ▸ hnull) (heq ▸ hidle)
  rw [Function.update_of_ne h₁] at heq hnull hidle
  rw [Function.update_of_ne h₂] at heq
  exact h.distinct cpu₁ cpu₂ heq hnull hidle

private theorem release {rings' : Rings} {saved scheduler : Scheduler}
    (h : SmpInvariant s rings frames) (hsaved : ∀ p, saved.context p = if p = s.current cpu then
      (s.scheduler.context p).map fun c => { c with contextFrame := s.registers cpu }
      else s.scheduler.context p)
    (hconsistent : Consistent scheduler rings')
    (hreleased : TaskReleased saved rings scheduler (s.current cpu) rings') :
    SmpInvariant { s with scheduler, current := Function.update s.current cpu .null } rings'
      (Function.update frames (s.current cpu) (s.registers cpu)) := by
  -- Tasks other than the one that ran are as they were; that one is unlocked, if still there.
  have hother : ∀ p, p ≠ s.current cpu → scheduler.context p = s.scheduler.context p := by
    intro p hp
    rw [hreleased.context_ne hp, hsaved, if_neg hp]
  have hthis : ∀ c, scheduler.context (s.current cpu) = some c → s.current cpu ≠ .idle →
      c.locked = false ∧ c.contextFrame = s.registers cpu := by
    intro c hc hidle
    have hnull : saved.context .null = none := by
      rw [hsaved, h.consistent.context_null]
      split <;> rfl
    obtain ⟨c', hc', -, rfl⟩ := hreleased.context_self hnull hidle hc
    rw [hsaved, if_pos rfl, Option.map_eq_some_iff] at hc'
    obtain ⟨c'', -, rfl⟩ := hc'
    exact ⟨TaskContext.unlock_locked _, rfl⟩
  have hcurrent : ∀ cpu', cpu' ≠ cpu → s.current cpu' ≠ .null → s.current cpu' ≠ .idle →
      s.current cpu' ≠ s.current cpu :=
    fun cpu' hne hnull hidle heq => hne (h.distinct cpu' cpu heq hnull hidle)
  refine ⟨hconsistent, ?_, ?_, ?_, ?_⟩
  · intro cpu'
    dsimp only
    rcases eq_or_ne cpu' cpu with rfl | hne
    · exact .inl (Function.update_self ..)
    · rw [Function.update_of_ne hne]
      rcases h.current cpu' with hcur | hcur | ⟨q, hcur⟩
      · exact .inl hcur
      · exact .inr (.inl hcur)
      · have htask := h.consistent.task q _ hcur
        obtain ⟨c, hc, -⟩ := h.consistent.owner q _ hcur
        rw [← hother _ (hcurrent cpu' hne htask.1 htask.2)] at hc
        exact .inr (.inr ⟨_, hconsistent.covered _ c hc htask.2⟩)
  · intro p c hc hp
    have hnull : p ≠ .null := (hconsistent.task _ p (hconsistent.covered p c hc hp)).1
    dsimp only at hc ⊢
    rcases eq_or_ne p (s.current cpu) with rfl | hne
    · rw [(hthis c hc hp).1]
      simp only [Bool.false_eq_true, false_iff, not_exists]
      intro cpu' heq
      rcases eq_or_ne cpu' cpu with rfl | hcpu
      · rw [Function.update_self] at heq
        exact hnull heq.symm
      · rw [Function.update_of_ne hcpu] at heq
        exact hcurrent cpu' hcpu (heq ▸ hnull) (heq ▸ hp) heq
    · rw [hother p hne] at hc
      rw [h.locked p c hc hp, exists_update_eq_iff hne.symm hnull.symm]
  · intro cpu₁ cpu₂ heq hnull hidle
    exact h.distinct_update (.inl rfl) heq hnull hidle
  · intro p c hc hp hlocked
    dsimp only at hc
    rcases eq_or_ne p (s.current cpu) with rfl | hne
    · rw [Function.update_self]
      exact (hthis c hc hp).2
    · rw [hother p hne] at hc
      rw [Function.update_of_ne hne]
      exact h.frame p c hc hp hlocked

private theorem dispatch {p : NodePtr} {q : SchedulerQueueNumber} {c : TaskContext}
    (h : SmpInvariant s rings frames) (cpu : C) (hcpu : s.current cpu = .null) (hp : p ∈ rings q)
    (hc : s.scheduler.context p = some c) (hready : c.locked = false)
    (registers : C → SchedulerContextFrame) :
    SmpInvariant
      { scheduler := s.scheduler.lockFound (some p)
        current := Function.update s.current cpu p
        registers } rings frames := by
  have htask := h.consistent.task q p hp
  have hcontext := Scheduler.lockFound_context hc
  have hfree : ∀ cpu', s.current cpu' ≠ p := by
    intro cpu' heq
    rw [(h.locked p c hc htask.2).mpr ⟨cpu', heq⟩] at hready
    exact Bool.noConfusion hready
  refine ⟨h.consistent.lockFound hp, ?_, ?_, ?_, ?_⟩
  · intro cpu'
    dsimp only
    rcases eq_or_ne cpu' cpu with rfl | hne
    · rw [Function.update_self]
      exact .inr (.inr ⟨q, hp⟩)
    · rw [Function.update_of_ne hne]
      exact h.current cpu'
  · intro p' c' hc' hp'
    dsimp only at hc' ⊢
    rw [hcontext] at hc'
    rcases Scheduler.update_context_cases hc' with ⟨rfl, rfl⟩ | ⟨hne, hc'⟩
    · rw [TaskContext.lock_locked]
      simp only [true_iff]
      exact ⟨cpu, Function.update_self ..⟩
    · have hnull : p' ≠ .null :=
        (h.consistent.task _ p' (h.consistent.covered p' c' hc' hp')).1
      rw [h.locked p' c' hc' hp', exists_update_eq_iff (hcpu ▸ hnull.symm) hne.symm]
  · intro cpu₁ cpu₂ heq hnull hidle
    dsimp only at heq hnull hidle
    by_cases h₁ : cpu₁ = cpu <;> by_cases h₂ : cpu₂ = cpu
    · rw [h₁, h₂]
    · rw [h₁, Function.update_self, Function.update_of_ne h₂] at heq
      exact absurd heq.symm (hfree cpu₂)
    · rw [h₂, Function.update_self, Function.update_of_ne h₁] at heq
      exact absurd heq (hfree cpu₁)
    · rw [Function.update_of_ne h₁] at heq hnull hidle
      rw [Function.update_of_ne h₂] at heq
      exact h.distinct cpu₁ cpu₂ heq hnull hidle
  · intro p' c' hc' hp' hlocked
    dsimp only at hc'
    rw [hcontext] at hc'
    rcases Scheduler.update_context_cases hc' with ⟨rfl, rfl⟩ | ⟨-, hc'⟩
    · rw [TaskContext.lock_locked] at hlocked
      exact Bool.noConfusion hlocked
    · exact h.frame p' c' hc' hp' hlocked

private theorem rest (h : SmpInvariant s rings frames) (cpu : C) (hcpu : s.current cpu = .null)
    (registers : C → SchedulerContextFrame) :
    SmpInvariant { s with current := Function.update s.current cpu .idle, registers } rings
      frames := by
  refine ⟨h.consistent, ?_, ?_, ?_, h.frame⟩
  · intro cpu'
    dsimp only
    rcases eq_or_ne cpu' cpu with rfl | hne
    · exact .inr (.inl (Function.update_self ..))
    · rw [Function.update_of_ne hne]
      exact h.current cpu'
  · intro p c hc hp
    dsimp only at hc ⊢
    have hnull : p ≠ .null := (h.consistent.task _ p (h.consistent.covered p c hc hp)).1
    rw [h.locked p c hc hp, exists_update_eq_iff (hcpu ▸ hnull.symm) hp.symm]
  · intro cpu₁ cpu₂ heq hnull hidle
    exact h.distinct_update (.inr rfl) heq hnull hidle

/-- An interrupt saves, releases what ran, and takes the first ready task of the lists, or the
idle node if there is none. -/
theorem timerHandler_spec (h : SmpInvariant s rings frames) (cpu : C) :
    ∃ saved scheduler rings' t,
      (∀ p, saved.context p = if p = s.current cpu then
        (s.scheduler.context p).map fun c => { c with contextFrame := s.registers cpu }
        else s.scheduler.context p) ∧
      Consistent scheduler rings' ∧ TaskReleased saved rings scheduler (s.current cpu) rings' ∧
      timerHandler cpu s = some t ∧
      t.scheduler = scheduler.lockFound ((schedulerQueues.flatMap rings').find? scheduler.ready) ∧
      t.current = Function.update s.current cpu
        (((schedulerQueues.flatMap rings').find? scheduler.ready).getD .idle) ∧
      ∀ p c, (schedulerQueues.flatMap rings').find? scheduler.ready = some p →
        scheduler.context p = some c → t.registers cpu = c.contextFrame := by
  obtain ⟨saved, hsave, hsavedConsistent, hsaved⟩ := h.save cpu
  obtain ⟨q, hcur⟩ := h.exists_queue cpu
  obtain ⟨ticks, scheduler, rings', hconsistent, hreleased, hnext⟩ :=
    schedulerNextTask_spec hsavedConsistent hcur
  refine ⟨saved, scheduler, rings', ?_⟩
  generalize hfound : (schedulerQueues.flatMap rings').find? scheduler.ready = found at hnext ⊢
  have hnode : ∃ node, (scheduler.lockFound found).nodes (found.getD .idle) = some node ∧
      found.getD .idle ≠ .null ∧
      ∀ p c, found = some p → scheduler.context p = some c → node.contextFrame = c.contextFrame := by
    cases found with
    | none =>
        obtain ⟨c, hc⟩ := hconsistent.idle
        obtain ⟨node, hnode, -⟩ := Scheduler.exists_node hc
        exact ⟨node, hnode, by simp, fun p c hp => absurd hp (by simp)⟩
    | some p =>
        obtain ⟨q, -, hp⟩ := List.mem_flatMap.mp (List.mem_of_find?_eq_some hfound)
        obtain ⟨node, hnode, -⟩ := hconsistent.allocated hp
        refine ⟨{ node with flags := node.context.lock.flags }, ?_, (hconsistent.task q p hp).1, ?_⟩
        · rw [Scheduler.lockFound_some hnode]
          exact scheduler.setNode_nodes p _
        · rintro p' c hp' hc
          obtain rfl := Option.some.inj hp'
          rw [Scheduler.context_of_nodes hnode, Option.some.injEq] at hc
          rw [← hc]
          rfl
  obtain ⟨node, hnode, hnull, hframe⟩ := hnode
  refine ⟨⟨scheduler.lockFound found, Function.update s.current cpu (found.getD .idle),
    Function.update s.registers cpu node.contextFrame⟩, hsaved, hconsistent, hreleased, ?_, rfl,
    rfl, ?_⟩
  · rw [timerHandler, hsave]
    change (schedulerNextTask (s.current cpu) saved).bind _ = _
    rw [hnext]
    change (if found.getD .idle = .null then _ else _) = _
    rw [if_neg hnull]
    change ((scheduler.lockFound found).nodes (found.getD .idle)).bind _ = _
    rw [hnode]
    rfl
  · intro p c hp hc
    exact (Function.update_self ..).trans (hframe p c hp hc)

theorem timer (h : SmpInvariant s rings frames) (cpu : C) :
    ∃ t rings', timerHandler cpu s = some t ∧
      SmpInvariant t rings' (Function.update frames (s.current cpu) (s.registers cpu)) ∧
      ∀ address, t.current cpu = .task address →
        t.registers cpu = Function.update frames (s.current cpu) (s.registers cpu)
          (.task address) := by
  obtain ⟨saved, scheduler, rings', t, hsaved, hconsistent, hreleased, ht, hscheduler, hcurrent,
    hregisters⟩ := h.timerHandler_spec cpu
  have hidle := h.release hsaved hconsistent hreleased
  generalize hfound : (schedulerQueues.flatMap rings').find? scheduler.ready = found at *
  obtain ⟨tscheduler, tcurrent, tregisters⟩ := t
  dsimp only at hscheduler hcurrent hregisters
  subst hscheduler hcurrent
  refine ⟨_, rings', ht, ?_⟩
  cases found with
  | none =>
      have hrest := hidle.rest cpu (Function.update_self ..) tregisters
      rw [Function.update_idem] at hrest
      refine ⟨hrest, ?_⟩
      intro address haddress
      dsimp only at haddress
      rw [Function.update_self] at haddress
      exact absurd haddress (by simp)
  | some p =>
      obtain ⟨q, -, hp⟩ := List.mem_flatMap.mp (List.mem_of_find?_eq_some hfound)
      obtain ⟨c, hc, -⟩ := hconsistent.owner q p hp
      have hready := (Scheduler.ready_iff hc).mp (List.find?_some hfound)
      have hdispatch := hidle.dispatch cpu (Function.update_self ..) hp hc hready.1
        tregisters
      rw [Function.update_idem] at hdispatch
      refine ⟨hdispatch, ?_⟩
      intro address haddress
      dsimp only at haddress ⊢
      rw [Function.update_self, Option.getD_some] at haddress
      rw [hregisters p c rfl hc, ← haddress]
      exact hidle.frame p c hc (hconsistent.task q p hp).2 hready.1

end Switch

end SmpInvariant

/-- What each task is to continue with after an action: the frame it was created with, until
an interrupt saves another. -/
def nextFrames [DecidableEq C] (s : Smp C) (frames : NodePtr → SchedulerContextFrame) :
    SmpAction C → NodePtr → SchedulerContextFrame
  | .addTask address state _ => Function.update frames (.task address) (initialFrame state)
  | .timer cpu => Function.update frames (s.current cpu) (s.registers cpu)
  | _ => frames

theorem SmpInvariant.step [DecidableEq C] {s t : Smp C} {rings : Rings}
    {frames : NodePtr → SchedulerContextFrame} {a : SmpAction C} (h : SmpInvariant s rings frames)
    (hstep : SmpStep s a t) : ∃ rings', SmpInvariant t rings' (nextFrames s frames a) := by
  cases hstep with
  | addTask hfresh hadd => exact ⟨_, h.addTask hfresh hadd⟩
  | @timer _ cpu ht =>
      obtain ⟨t', rings', ht', hinv, -⟩ := h.timer cpu
      rw [ht, Option.some.injEq] at ht'
      exact ⟨rings', ht' ▸ hinv⟩
  | finish _ hfinish => exact ⟨rings, h.finish hfinish⟩
  | compute cpu registers =>
      exact ⟨rings, h.consistent, h.current, h.locked, h.distinct, h.frame⟩

theorem smpInit_invariant (schedulerIdle : BitVec 64) (registers : C → SchedulerContextFrame)
    (frames : NodePtr → SchedulerContextFrame) :
    SmpInvariant (smpInit schedulerIdle registers) (fun _ => []) frames := by
  refine ⟨initialScheduler_consistent schedulerIdle, fun _ => .inl rfl, ?_,
    fun _ _ _ hnull => absurd rfl hnull, ?_⟩
  · exact fun p c hc hp => absurd (initialScheduler_context hc) hp
  · exact fun p c hc hp => absurd (initialScheduler_context hc) hp

end Machine

end VisualOS.Kernel
