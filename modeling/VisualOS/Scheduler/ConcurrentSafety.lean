import VisualOS.Scheduler.ConcurrentCalls

/-!
# The scheduler on many processors

Any number of processors call the scheduler at the same time, their accesses to memory
interleaved in any order.  The processors see each other's stores in that order, and the calls on
one processor do not nest.
-/

namespace VisualOS.Kernel

open Framework

namespace SchedulerWorld

variable {C : Type} {c : C} {p : NodePtr} {q : SchedulerQueueNumber}

/-! ## The task during a call -/

section During

variable {w u : SchedulerWorld C} {α β : Type}

/-- The processor has the task locked. -/
def Has (c : C) (p : NodePtr) (w : SchedulerWorld C) : Prop := ∃ q, w.place p = .queued q (some c)

private theorem Has.stable (c : C) (p : NodePtr) : (protocol C).Stable c (Has c p) := by
  rintro w w' ⟨q, hq⟩ ⟨-, -, c', hne, haccess⟩
  have hplace := (haccess.keeps c hne.symm).place p (.inl (by rw [hq]; rfl))
  exact ⟨q, hplace.1.trans hq⟩

private theorem Has.unique {c' : C} (h : Has c p w) (h' : Has c' p w) : c' = c := by
  obtain ⟨q, hq⟩ := h
  obtain ⟨q', hq'⟩ := h'
  rw [hq, Place.queued.injEq, Option.some.injEq] at hq'
  exact hq'.2.symm

private theorem Has.locked (h : Has c p w) (hw : w.Sound) : w.Locked p := by
  obtain ⟨q, hq⟩ := h
  obtain ⟨node, owner, hplace, hnode, -, hlocked, -⟩ := hw.exists_node ⟨_, hq⟩
  rw [hq, Place.queued.injEq] at hplace
  exact ⟨node, hnode, by rw [hlocked, ← hplace.2]; rfl⟩

/-- Nobody else can have taken the lock of a task that the processor has not given back. -/
theorem Has.access (h : Has c p w) (haccess : Access c w u) (hlocked : u.Locked p) :
    Has c p u := by
  obtain ⟨q, hq⟩ := h
  obtain ⟨node, hnode, hflag⟩ := hlocked
  have hqueued : u.Queued q p := by
    refine (haccess.queued q p ⟨_, hq⟩).resolve_right ?_
    rw [hnode]
    exact Option.some_ne_none node
  obtain ⟨node', owner, hplace, hnode', -, howner, -⟩ := haccess.sound.exists_node hqueued
  obtain rfl : node = node' := Option.some.inj (hnode.symm.trans hnode')
  obtain ⟨c', rfl⟩ := Option.isSome_iff_exists.mp (howner.symm.trans hflag)
  by_cases hc : c' = c
  · exact ⟨q, by rw [hplace, hc]⟩
  · have hsame := (haccess.keeps c' hc).place p (.inr (by rw [hplace]; rfl))
    exact ⟨q, hsame.1.trans hq⟩

private theorem maintains_access {waits : Bool}
    {f : SharedScheduler C → Option (β × SharedScheduler C)} {next : β → Prog (SharedScheduler C) α}
    (h : ∀ s b t, f s = some (b, t) → s.Locked p →
      t.Locked p ∧ (protocol C).Maintains c (Has c p) (next b)) :
    (protocol C).Maintains c (Has c p) (.access waits f next) := by
  intro w b u hw hhas hf haccess _
  obtain ⟨hlocked, hnext⟩ := h _ b _ hf (hhas.locked hw)
  exact ⟨hhas.access haccess hlocked, hnext⟩

private theorem maintains_nodes {waits : Bool}
    {f : SharedScheduler C → Option (β × SharedScheduler C)}
    (h : ∀ s b t, f s = some (b, t) → t.nodes = s.nodes) :
    (protocol C).Maintains c (Has c p) (.access waits f .done) := by
  refine maintains_access fun s b t hf hlocked => ⟨?_, trivial⟩
  rw [SharedScheduler.Locked, h s b t hf]
  exact hlocked

private theorem maintains_loadNode (r : NodePtr) (field : SchedulerNode → β) :
    (protocol C).Maintains c (Has c p) (SharedScheduler.loadNode r field) := by
  refine maintains_nodes fun s b t hf => ?_
  obtain ⟨node, -, heq⟩ := Option.map_eq_some_iff.mp hf
  rw [← (Prod.mk.inj heq).2]

private theorem maintains_loadQueue (q : SchedulerQueueNumber) (field : SchedulerQueue → β) :
    (protocol C).Maintains c (Has c p) (SharedScheduler.loadQueue q field) := by
  refine maintains_nodes fun s b t hf => ?_
  rw [← (Prod.mk.inj (Option.some.inj hf)).2]

private theorem maintains_storeQueue (q : SchedulerQueueNumber)
    (f : SchedulerQueue → SchedulerQueue) :
    (protocol C).Maintains c (Has c p) (SharedScheduler.storeQueue q f) := by
  refine maintains_nodes fun s b t hf => ?_
  rw [← (Prod.mk.inj (Option.some.inj hf)).2]
  rfl

private theorem maintains_schedulerQueueSpinlock (q : SchedulerQueueNumber) :
    (protocol C).Maintains c (Has c p) (SharedScheduler.schedulerQueueSpinlock q) := by
  refine maintains_nodes fun s b t hf => ?_
  obtain ⟨t', ht', heq⟩ := Option.map_eq_some_iff.mp hf
  simp only [Kernel.schedulerQueueSpinlock, Option.bind_eq_bind, Option.bind_eq_some_iff,
    Option.pure_def, Option.some.injEq] at ht'
  obtain ⟨flags, -, rfl⟩ := ht'
  rw [← (Prod.mk.inj heq).2]
  rfl

private theorem maintains_schedulerQueueUnlock (q : SchedulerQueueNumber) :
    (protocol C).Maintains c (Has c p) (SharedScheduler.schedulerQueueUnlock q) :=
  (maintains_loadQueue q _).bind fun _ => maintains_storeQueue q _

private theorem maintains_storeNode {r : NodePtr} {f : SchedulerNode → SchedulerNode}
    (hf : ∀ node, node.context.locked = true → (f node).context.locked = true) :
    (protocol C).Maintains c (Has c p) (SharedScheduler.storeNode r f) := by
  refine maintains_access fun s b t hstore hlocked => ⟨?_, trivial⟩
  obtain ⟨t', ht', heq⟩ := Option.map_eq_some_iff.mp hstore
  simp only [Scheduler.modifyNode, Option.bind_eq_bind, Option.bind_eq_some_iff, Option.pure_def,
    Option.some.injEq] at ht'
  obtain ⟨node, hnode, rfl⟩ := ht'
  rw [← (Prod.mk.inj heq).2]
  obtain ⟨node', hnode', hflag⟩ := hlocked
  rcases eq_or_ne p r with rfl | hne
  · obtain rfl : node = node' := Option.some.inj (hnode.symm.trans hnode')
    exact ⟨f node, Scheduler.setNode_nodes _ p _, hf node hflag⟩
  · exact ⟨node', (Function.update_of_ne hne ..).trans hnode', hflag⟩

private theorem maintains_mallocNode (r : NodePtr) (contents : SchedulerNode) :
    (protocol C).Maintains c (Has c p) (SharedScheduler.mallocNode r contents) := by
  refine maintains_access fun s b t hmalloc hlocked => ⟨?_, trivial⟩
  obtain ⟨node, hnode, hflag⟩ := hlocked
  obtain ⟨hnone, heq⟩ := Option.ite_none_right_eq_some.mp hmalloc
  rw [← (Prod.mk.inj (Option.some.inj heq)).2]
  have hne : p ≠ r := by
    rintro rfl
    exact absurd (hnode.symm.trans hnone) (Option.some_ne_none node)
  exact ⟨node, (Function.update_of_ne hne ..).trans hnode, hflag⟩

private theorem maintains_linkOnly (r : NodePtr) (q : SchedulerQueueNumber) :
    (protocol C).Maintains c (Has c p) (SharedScheduler.linkOnly r q) := by
  refine Protocol.Maintains.bind (maintains_storeNode fun _ h => h) fun _ => ?_
  exact Protocol.Maintains.bind (maintains_storeNode fun _ h => h) fun _ =>
    maintains_storeQueue q _

private theorem maintains_linkLast (r : NodePtr) (q : SchedulerQueueNumber) :
    (protocol C).Maintains c (Has c p) (SharedScheduler.linkLast r q) := by
  refine (maintains_loadQueue q _).bind fun first => ?_
  refine (maintains_loadNode first _).bind fun _ => ?_
  refine Protocol.Maintains.bind (maintains_storeNode fun _ h => h) fun _ => ?_
  refine Protocol.Maintains.bind (maintains_storeNode fun _ h => h) fun _ => ?_
  refine (maintains_loadNode first _).bind fun _ => ?_
  exact Protocol.Maintains.bind (maintains_storeNode fun _ h => h) fun _ =>
    maintains_storeNode fun _ h => h

private theorem maintains_schedulerAddTask (r : NodePtr) (state : SchedulerTaskInitialState)
    (q : SchedulerQueueNumber) :
    (protocol C).Maintains c (Has c p) (SharedScheduler.schedulerAddTask r state q) := by
  refine (maintains_mallocNode r _).bind fun _ => ?_
  refine (maintains_schedulerQueueSpinlock q).bind fun _ => ?_
  refine Protocol.Maintains.bind ?_ fun _ => maintains_schedulerQueueUnlock q
  refine (maintains_loadNode r _).bind fun q' => ?_
  refine (maintains_loadQueue q' _).bind fun num => ?_
  have hcount : (protocol C).Maintains c (Has c p) (do
      let num ← SharedScheduler.loadQueue q' (·.num)
      SharedScheduler.storeQueue q' fun queue => { queue with num := num + 1 }) :=
    (maintains_loadQueue q' _).bind fun _ => maintains_storeQueue q' _
  dsimp only
  split
  · exact (maintains_linkOnly r q').bind fun _ => hcount
  · exact (maintains_linkLast r q').bind fun _ => hcount

/-- The `or` puts back the flag that it has read. -/
theorem maintains_finishTask :
    (protocol C).Maintains c (Has c p) (SharedScheduler.finishTask p) := by
  refine maintains_access fun s flags t hload hlocked => ?_
  obtain ⟨node, hnode, hflag⟩ := hlocked
  rw [hnode, Option.map_some, Option.some.injEq, Prod.mk.injEq] at hload
  obtain ⟨rfl, rfl⟩ := hload
  refine ⟨⟨node, hnode, hflag⟩, maintains_storeNode fun _ _ => ?_⟩
  have hbit : node.flags.getLsbD schedulerFlagLocked = true := hflag
  change (node.flags ||| BitVec.twoPow 64 schedulerFlagFinished).getLsbD schedulerFlagLocked = true
  rw [BitVec.getLsbD_or, hbit, Bool.true_or]

/-- The same for what a processor runs, which may be no task. -/
def Owns (c : C) (r : NodePtr × Option Nat) (w : SchedulerWorld C) : Prop :=
  r.1 ≠ .null ∧ r.1 ≠ .idle → Has c r.1 w

private theorem Owns.stable (c : C) (r : NodePtr × Option Nat) : (protocol C).Stable c (Owns c r) :=
  fun w w' h hother htask => Has.stable c r.1 w w' (h htask) hother

private theorem maintains_owns {r : NodePtr × Option Nat} {prog : Prog (SharedScheduler C) α}
    (h : (protocol C).Maintains c (Has c r.1) prog) : (protocol C).Maintains c (Owns c r) prog := by
  by_cases htask : r.1 ≠ .null ∧ r.1 ≠ .idle
  · have howns : Owns c r = Has c r.1 := funext fun w => propext ⟨fun h => h htask, fun h _ => h⟩
    rwa [howns]
  · exact .of_forall (fun w h => absurd h htask) prog

end During

end SchedulerWorld

/-- The calls that a processor makes, one after the other, with the task that it runs: the timer
interrupt, the creation of a task, and the end of the running one.  The task goes on after the last
two; the timer interrupt has stopped it. -/
inductive SchedulerCall {C : Type} [DecidableEq C] (c : C) (r : NodePtr × Option Nat) :
    NodePtr × Option Nat → Prog (SharedScheduler C) (NodePtr × Option Nat) → Prop
  | nextTask (rounds : Nat) :
      SchedulerCall c r (.null, none) (SharedScheduler.schedulerNextTask c rounds r.1)
  | addTask (address : Nat) (state : SchedulerTaskInitialState) (q : SchedulerQueueNumber) :
      SchedulerCall c r r
        (SharedScheduler.schedulerAddTask (.task address) state q >>= fun _ => pure r)
  | finishTask : r.1 ≠ .null → r.1 ≠ .idle →
      SchedulerCall c r r (SharedScheduler.finishTask r.1 >>= fun _ => pure r)

/-- After `scheduler_init`, with no task on any processor. -/
def schedulerBoot (C : Type) (schedulerIdle : BitVec 64) :
    Pool C (SharedScheduler C) (NodePtr × Option Nat) where
  shared := ⟨initialScheduler schedulerIdle, fun _ => none⟩
  threads _ := .done (.null, none)
  meanwhile _ := (.null, none)

/-- The processor runs the task, between calls or in a call that comes back to it. -/
def RunsTask {C : Type} (t : Pool C (SharedScheduler C) (NodePtr × Option Nat)) (c : C)
    (p : NodePtr) : Prop :=
  p ≠ .null ∧ p ≠ .idle ∧ ((t.meanwhile c).1 = p ∨ ∃ r, t.threads c = .done r ∧ r.1 = p)

namespace SchedulerWorld

variable {C : Type} {c : C} {w : SchedulerWorld C} {r : NodePtr × Option Nat}

private theorem rests_call [DecidableEq C] {r' : NodePtr × Option Nat}
    {prog : Prog (SharedScheduler C) (NodePtr × Option Nat)} (h : SchedulerCall c r r' prog) : (protocol C).Triple c (Rests c r) prog (Rests c) := by
  cases h with
  | nextTask rounds => exact rests_schedulerNextTask rounds r
  | addTask address state q =>
      refine Protocol.Triple.bind ready_schedulerAddTask fun _ => ?_
      exact .pure fun w _ h => h
  | finishTask hnull hidle =>
      have hr : Rests c r = Ready c (some r.1) none := by
        rw [Rests, if_neg (by simp [hnull, hidle])]
      rw [hr]
      refine Protocol.Triple.bind ready_finishTask fun _ => ?_
      refine .pure fun w _ h => ?_
      rw [hr]
      exact h

private theorem Rests.locked_iff (h : Rests c r w) {p : NodePtr} :
    (∃ q, w.place p = .queued q (some c)) ↔ r.1 = p ∧ p ≠ .null ∧ p ≠ .idle := by
  obtain ⟨k, hk, hrunning, -⟩ := h
  rw [hk.running, hrunning]
  split
  case isTrue hnone =>
    simp only [reduceCtorEq, false_iff]
    rintro ⟨rfl, hnull, hidle⟩
    exact hnone.elim hnull hidle
  case isFalse htask =>
    rw [not_or] at htask
    rw [Option.some.injEq]
    constructor
    · rintro rfl
      exact ⟨rfl, htask⟩
    · exact fun h => h.1

private theorem Rests.owns (h : Rests c r w) : Owns c r w :=
  fun htask => h.locked_iff.mpr ⟨rfl, htask⟩

private theorem safeCalls [DecidableEq C] :
    (protocol C).SafeCalls SchedulerCall Rests Owns where
  stable c r := Ready.stable c _ none
  stable_during := Owns.stable
  triple _ _ _ _ := rests_call
  begins c r r' prog w h hw hrests := by
    cases h with
    | nextTask => exact fun htask => absurd rfl htask.1
    | addTask | finishTask => exact hrests.owns
  maintains c r r' prog h := by
    cases h with
    | nextTask => exact .of_forall (fun w htask => absurd rfl htask.1) _
    | addTask address state q =>
        exact maintains_owns ((maintains_schedulerAddTask _ state q).bind fun _ => trivial)
    | finishTask => exact maintains_owns (maintains_finishTask.bind fun _ => trivial)

private theorem Rests.holder (h : Rests c r w) (q : SchedulerQueueNumber) :
    w.holder q ≠ some c := by
  obtain ⟨k, hk, -, -, hheld, -⟩ := h
  intro hq
  rw [hk.held, hheld] at hq
  exact absurd hq (by simp)

private theorem Rests.pending (h : Rests c r w) (p : NodePtr) : w.place p ≠ .pending c := by
  obtain ⟨k, hk, -, hpending, -⟩ := h
  intro hp
  rw [hk.pending, hpending] at hp
  exact absurd hp (by simp)

/-- The world of `schedulerBoot`. -/
def boot (C : Type) (schedulerIdle : BitVec 64) : SchedulerWorld C where
  toSharedScheduler := ⟨initialScheduler schedulerIdle, fun _ => none⟩
  place p := if p = .idle then .idle else .absent
  holder _ := none

private theorem boot_not_queued {schedulerIdle : BitVec 64} {q : SchedulerQueueNumber}
    {p : NodePtr} : ¬(boot C schedulerIdle).Queued q p := by
  by_cases hp : p = .idle <;> simp [boot, Queued, Place.In, hp]

private theorem boot_sound (schedulerIdle : BitVec 64) : (boot C schedulerIdle).Sound where
  null := rfl
  idle p := by
    by_cases hp : p = .idle <;> simp [boot, hp]
  node p := by
    by_cases hp : p = .idle
    · rw [boot, hp]
      exact .idle _
    · have hnode : (initialScheduler schedulerIdle).nodes p = none := if_neg hp
      rw [show (boot C schedulerIdle).place p = .absent from if_neg hp,
        show (boot C schedulerIdle).nodes p = none from hnode]
      exact .absent
  first _ := .inl rfl
  locked _ := BitVec.getLsbD_zero
  linked q _ := ⟨[], fun p => by simp [boot_not_queued], .nil _ _, rfl, rfl⟩
  cursor _ _ h := absurd h (by simp [boot])

private theorem boot_rests (schedulerIdle : BitVec 64) (c : C) :
    Rests c (.null, none) (boot C schedulerIdle) := by
  refine ⟨⟨none, none, none, none, (sIdleNode schedulerIdle).context, sIdleNode schedulerIdle,
    ⟨.null, 0, 0⟩, [], id, id⟩, ⟨?_, ?_, ?_, rfl, ?_, ?_, ?_, ?_, ?_⟩, rfl, rfl, rfl, rfl, by simp⟩
  · intro p
    by_cases hp : p = .idle <;> simp [boot, hp]
  · intro p
    by_cases hp : p = .idle <;> simp [boot, hp]
  all_goals simp [boot]

private theorem Sound.linkedQueue (h : w.Sound) {q : SchedulerQueueNumber}
    (hq : (w.queues q).flags.getLsbD schedulerFlagLocked = false) :
    ∃ l, LinkedQueue w.toScheduler q l ∧ ∀ p, p ∈ l ↔ w.Queued q p := by
  have hholder : w.holder q = none := by
    rw [← Option.not_isSome_iff_eq_none, ← h.locked, hq]
    exact Bool.false_ne_true
  obtain ⟨l, hmem, hl⟩ := h.linked q hholder
  refine ⟨l, ⟨hl.ring, hl.first, hl.num, ?_⟩, hmem⟩
  intro p hp
  obtain ⟨node, -, -, hnode, hqueueNum, -⟩ := h.exists_node ((hmem p).mp hp)
  exact ⟨_, Scheduler.context_of_nodes hnode, hqueueNum⟩

/-- Between calls of all processors the state is consistent, and the locked tasks are those that
run. -/
theorem Sound.consistent (h : w.Sound) {answer : C → NodePtr × Option Nat}
    (hrests : ∀ c, Rests c (answer c) w) :
    ∃ rings, Consistent w.toScheduler rings ∧ ∀ q, ∀ p ∈ rings q, ∀ x, w.context p = some x →
      (x.locked = true ↔ ∃ c, (answer c).1 = p) := by
  have hfree : ∀ q, (w.queues q).flags.getLsbD schedulerFlagLocked = false := by
    intro q
    rw [h.locked, Option.isSome_eq_false_iff, Option.isNone_iff_eq_none,
      Option.eq_none_iff_forall_ne_some]
    exact fun c => (hrests c).holder q
  choose rings hrings hmem using fun q => h.linkedQueue (hfree q)
  refine ⟨rings, ⟨⟨fun q => (hrings q).ring, fun q => (hrings q).first, fun q => (hrings q).num,
    fun q => (hrings q).owner⟩, hfree, ?_, ?_, ?_⟩, ?_⟩
  · intro q p hp
    have hq := (hmem q p).mp hp
    exact ⟨h.ne_null hq, h.ne_idle hq⟩
  · intro p x hx hidle
    rw [hmem]
    have hnode := h.node p
    obtain ⟨node, hnodes, rfl⟩ := Scheduler.exists_node hx
    rw [hnodes] at hnode
    generalize hplace : w.place p = place at hnode
    cases hnode with
    | idle => exact absurd ((h.idle p).mp hplace) hidle
    | pending c => exact absurd hplace ((hrests c).pending p)
    | queued hqueueNum _ _ => exact ⟨_, hplace.trans (by rw [← hqueueNum]; rfl)⟩
  · have hnode := h.node .idle
    rw [(h.idle _).mpr rfl] at hnode
    generalize hnodes : w.nodes .idle = contents at hnode
    cases hnode with
    | idle node => exact ⟨_, Scheduler.context_of_nodes hnodes⟩
  · intro q p hp x hx
    have hq := (hmem q p).mp hp
    obtain ⟨node, owner, hplace, hnode, -, hlocked, -⟩ := h.exists_node hq
    rw [Scheduler.context_of_nodes hnode, Option.some.injEq] at hx
    rw [← hx, hlocked, Option.isSome_iff_exists]
    refine exists_congr fun c => ?_
    have hiff := (hrests c).locked_iff (p := p)
    rw [hplace] at hiff
    simp only [Place.queued.injEq, exists_eq_left', h.ne_null hq, h.ne_idle hq, ne_eq,
      not_false_eq_true, and_true] at hiff
    exact hiff

end SchedulerWorld

section Interleavings

variable {C : Type} [DecidableEq C]

open SchedulerWorld

/-- Whatever the order in which the accesses of the processors' calls take place: no call follows a
pointer that leads nowhere, a task runs on one processor at a time, between calls and in those that
it makes, and a queue that nobody has locked is a ring.  When all calls have returned, the lists hold all tasks, and the locked ones are
those that run. -/
theorem scheduler_interleavings_safe {schedulerIdle : BitVec 64} {cs : List C}
    {t : Pool C (SharedScheduler C) (NodePtr × Option Nat)}
    (hrun : Run (PoolStep SchedulerCall SharedScheduler.Reclaims) (schedulerBoot C schedulerIdle)
      cs t) :
    (∀ c, ¬(t.threads c).Faults t.shared) ∧
    (∀ c p, RunsTask t c p →
      (∃ node, t.shared.nodes p = some node ∧ node.context.locked = true) ∧
      ∀ c', RunsTask t c' p → c' = c) ∧
    (∀ q, (t.shared.queues q).flags.getLsbD schedulerFlagLocked = false →
      ∃ l, LinkedQueue t.shared.toScheduler q l) ∧
    ∀ answer : C → NodePtr × Option Nat, (∀ c, t.threads c = .done (answer c)) →
      ∃ rings, Consistent t.shared.toScheduler rings ∧ ∀ q, ∀ p ∈ rings q, ∀ x,
        t.shared.context p = some x → (x.locked = true ↔ ∃ c, (answer c).1 = p) := by
  have hboot : Protocol.PoolSafe (protocol C) Rests Owns (schedulerBoot C schedulerIdle)
      (boot C schedulerIdle) :=
    ⟨rfl, boot_sound schedulerIdle, fun c => boot_rests schedulerIdle c,
      fun c htask => absurd rfl htask.1, fun c => trivial⟩
  obtain ⟨w, hw⟩ := hboot.run safeCalls hrun
  have hinv : w.Sound := hw.inv
  have hshared : w.toSharedScheduler = t.shared := hw.shared
  have hrests : ∀ c r, t.threads c = .done r → Rests c r w := by
    intro c r hr
    have := hw.threads c
    rwa [hr] at this
  have hhas : ∀ c p, RunsTask t c p → Has c p w := by
    rintro c p ⟨hnull, hidle, rfl | ⟨r, hr, rfl⟩⟩
    · exact hw.meanwhile c ⟨hnull, hidle⟩
    · exact (hrests c r hr).owns ⟨hnull, hidle⟩
  rw [← hshared]
  refine ⟨?_, ?_, ?_, ?_⟩
  · intro c
    have := hw.not_faults c
    rwa [← hshared] at this
  · intro c p hp
    exact ⟨(hhas c p hp).locked hinv, fun c' hp' => (hhas c p hp).unique (hhas c' p hp')⟩
  · intro q hq
    obtain ⟨l, hl, -⟩ := hinv.linkedQueue hq
    exact ⟨l, hl⟩
  · intro answer hanswer
    exact hinv.consistent fun c => hrests c _ (hanswer c)

end Interleavings

/-- A processor searches once while another links in a task, and once more when that is done.  The
task that it finds then ends, and that call has only begun. -/
def smallInterleaving : List Bool :=
  .replicate 8 false ++ .replicate 7 true ++ .replicate 4 false ++ .replicate 10 true

private theorem exists_smallInterleaving :
    ∃ t : Pool Bool (SharedScheduler Bool) (NodePtr × Option Nat),
    Run (PoolStep SchedulerCall SharedScheduler.Reclaims) (schedulerBoot Bool 0x100)
      smallInterleaving t ∧ RunsTask t true (.task 1) ∧ ∀ r, t.threads true ≠ .done r :=
  ⟨_, .cons (.call rfl (.addTask 1 ⟨fun _ => 0, 0x1000, 0x2000, 3⟩ .regular)) <|
    .cons (.access rfl rfl .setNode) <| .cons (.access rfl rfl (.of_nodes rfl)) <|
    .cons (.access rfl rfl (.of_nodes rfl)) <| .cons (.access rfl rfl (.of_nodes rfl)) <|
    .cons (.access rfl rfl .setNode) <| .cons (.access rfl rfl .setNode) <|
    .cons (.access rfl rfl (.of_nodes rfl)) <| .cons (.call rfl (.nextTask 5)) <|
    .cons (.access rfl rfl (.of_nodes rfl)) <| .cons (.access rfl rfl (.of_nodes rfl)) <|
    .cons (.access rfl rfl (.of_nodes rfl)) <| .cons (.access rfl rfl (.of_nodes rfl)) <|
    .cons (.access rfl rfl (.of_nodes rfl)) <| .cons (.access rfl rfl (.of_nodes rfl)) <|
    .cons (.access rfl rfl (.of_nodes rfl)) <| .cons (.access rfl rfl (.of_nodes rfl)) <|
    .cons (.access rfl rfl (.of_nodes rfl)) <| .cons (.access rfl rfl (.of_nodes rfl)) <|
    .cons (.call rfl (.nextTask 5)) <| .cons (.access rfl rfl (.of_nodes rfl)) <|
    .cons (.access rfl rfl (.of_nodes rfl)) <| .cons (.access rfl rfl (.of_nodes rfl)) <|
    .cons (.access rfl rfl (.of_nodes rfl)) <| .cons (.access rfl rfl (.of_nodes rfl)) <|
    .cons (.access rfl rfl .setNode) <| .cons (.access rfl rfl (.of_nodes rfl)) <|
    .cons (.call rfl (.finishTask (r := (.task 1, some 0)) (by simp) (by simp))) <|
    .cons (.access rfl rfl (.of_nodes rfl)) <| .nil _,
    ⟨by simp, by simp, .inl rfl⟩, fun _ h => by cases h⟩

theorem scheduler_interleavings_safe_two :
    ∃ t : Pool Bool (SharedScheduler Bool) (NodePtr × Option Nat),
      Run (PoolStep SchedulerCall SharedScheduler.Reclaims) (schedulerBoot Bool 0x100)
        smallInterleaving t ∧
      (∀ r, t.threads true ≠ .done r) ∧ ¬RunsTask t false (.task 1) ∧
      ∃ node, t.shared.nodes (.task 1) = some node ∧ node.context.locked = true := by
  obtain ⟨t, hrun, htask, hcall⟩ := exists_smallInterleaving
  obtain ⟨-, hruns, -⟩ := scheduler_interleavings_safe hrun
  obtain ⟨hlocked, hunique⟩ := hruns true _ htask
  refine ⟨t, hrun, hcall, ?_, hlocked⟩
  intro hother
  exact Bool.false_ne_true (hunique false hother)

/-- A search that stands at a node while it is freed follows a pointer to nothing. -/
theorem exists_search_faults :
    ∃ (cs : List Bool) (t : Pool Bool (SharedScheduler Bool) (NodePtr × Option Nat)),
      Run (PoolStep SchedulerCall fun _ _ => True) (schedulerBoot Bool 0x100) cs t ∧
        (t.threads true).Faults t.shared := by
  refine ⟨.replicate 20 false ++ .replicate 5 true ++ .replicate 16 false, _,
    .cons (.call rfl (.addTask 1 ⟨fun _ => 0, 0x1000, 0x2000, 3⟩ .regular)) <|
    .cons (.access rfl rfl trivial) <| .cons (.access rfl rfl trivial) <|
    .cons (.access rfl rfl trivial) <| .cons (.access rfl rfl trivial) <|
    .cons (.access rfl rfl trivial) <| .cons (.access rfl rfl trivial) <|
    .cons (.access rfl rfl trivial) <| .cons (.access rfl rfl trivial) <|
    .cons (.access rfl rfl trivial) <| .cons (.access rfl rfl trivial) <|
    .cons (.access rfl rfl trivial) <| .cons (.call rfl (.nextTask 5)) <|
    .cons (.access rfl rfl trivial) <| .cons (.access rfl rfl trivial) <|
    .cons (.access rfl rfl trivial) <| .cons (.access rfl rfl trivial) <|
    .cons (.access rfl rfl trivial) <| .cons (.access rfl rfl trivial) <|
    .cons (.access rfl rfl trivial) <| .cons (.call rfl (.nextTask 5)) <|
    .cons (.access rfl rfl trivial) <| .cons (.access rfl rfl trivial) <|
    .cons (.access rfl rfl trivial) <| .cons (.access rfl rfl trivial) <|
    .cons (.call rfl (.finishTask (r := (.task 1, some 0)) (by simp) (by simp))) <|
    .cons (.access rfl rfl trivial) <| .cons (.access rfl rfl trivial) <|
    .cons (.call rfl (.nextTask 5)) <| .cons (.access rfl rfl trivial) <|
    .cons (.access rfl rfl trivial) <| .cons (.access rfl rfl trivial) <|
    .cons (.access rfl rfl trivial) <| .cons (.access rfl rfl trivial) <|
    .cons (.access rfl rfl trivial) <| .cons (.access rfl rfl trivial) <|
    .cons (.access rfl rfl trivial) <| .cons (.access rfl rfl trivial) <|
    .cons (.access rfl rfl trivial) <| .cons (.access rfl rfl trivial) <|
    .cons (.access rfl rfl trivial) <| .nil _, ?_⟩
  exact ⟨rfl, rfl⟩

end VisualOS.Kernel
