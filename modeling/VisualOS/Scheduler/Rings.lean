import VisualOS.Framework.Ring
import VisualOS.Scheduler.Scheduler

/-!
# The rings behind the queues

A queue is a ring of nodes cut at `first`, that is, a list.  The operations are described by
what they do to the three lists and to the contents of the nodes other than their links.
-/

namespace VisualOS.Kernel

open Framework

/-- A node without its links. -/
structure TaskContext where
  contextFrame : SchedulerContextFrame
  flags : BitVec 64
  queueNum : SchedulerQueueNumber

namespace TaskContext

def locked (c : TaskContext) : Bool := c.flags.getLsbD schedulerFlagLocked

def finished (c : TaskContext) : Bool := c.flags.getLsbD schedulerFlagFinished

def lock (c : TaskContext) : TaskContext :=
  { c with flags := (atomicLock c.flags schedulerFlagLocked).2 }

def unlock (c : TaskContext) : TaskContext :=
  { c with flags := (atomicUnlock c.flags schedulerFlagLocked).2 }

/-- A task that has marked itself finished. -/
def finish (c : TaskContext) : TaskContext :=
  { c with flags := c.flags ||| BitVec.twoPow 64 schedulerFlagFinished }

@[simp] theorem finish_contextFrame (c : TaskContext) :
    c.finish.contextFrame = c.contextFrame := rfl

@[simp] theorem finish_locked (c : TaskContext) : c.finish.locked = c.locked := by
  simp [finish, locked, schedulerFlagLocked, schedulerFlagFinished]

@[simp] theorem finish_finished (c : TaskContext) : c.finish.finished = true := by
  simp [finish, finished, schedulerFlagFinished]

@[simp] theorem lock_queueNum (c : TaskContext) : c.lock.queueNum = c.queueNum := rfl

@[simp] theorem lock_locked (c : TaskContext) : c.lock.locked = true := by
  simp [lock, locked, atomicLock, schedulerFlagLocked]

@[simp] theorem lock_finished (c : TaskContext) : c.lock.finished = c.finished := by
  simp [lock, finished, atomicLock, schedulerFlagLocked, schedulerFlagFinished]

@[simp] theorem unlock_locked (c : TaskContext) : c.unlock.locked = false := by
  simp [unlock, locked, atomicUnlock, schedulerFlagLocked]

@[simp] theorem unlock_finished (c : TaskContext) : c.unlock.finished = c.finished := by
  simp [unlock, finished, atomicUnlock, schedulerFlagLocked, schedulerFlagFinished]

theorem unlock_lock (c : TaskContext) : c.lock.unlock = c.unlock := by
  have hflags : (atomicUnlock c.lock.flags schedulerFlagLocked).2 =
      (atomicUnlock c.flags schedulerFlagLocked).2 := by
    refine BitVec.eq_of_getLsbD_eq fun i hi => ?_
    simp only [lock, atomicUnlock, atomicLock, BitVec.getLsbD_and, BitVec.getLsbD_or,
      BitVec.getLsbD_not, BitVec.getLsbD_twoPow]
    by_cases h : schedulerFlagLocked = i <;> simp [h, hi]
  rw [unlock, hflags]
  rfl

theorem lock_of_locked {c : TaskContext} (h : c.locked = true) : c.lock = c := by
  have hflags : c.flags ||| BitVec.twoPow 64 schedulerFlagLocked = c.flags := by
    refine BitVec.eq_of_getLsbD_eq fun i hi => ?_
    rw [BitVec.getLsbD_or, BitVec.getLsbD_twoPow]
    by_cases h0 : schedulerFlagLocked = i
    · subst i
      simp [show c.flags.getLsbD schedulerFlagLocked = true from h]
    · simp [h0]
  rw [lock, atomicLock, hflags]

theorem passFlags_eq_zero (c : TaskContext) :
    c.flags &&& passFlags = 0 ↔ c.locked = false ∧ c.finished = false := by
  constructor
  · intro h
    have hbit : ∀ i, passFlags.getLsbD i = true → c.flags.getLsbD i = false := by
      intro i hi
      have := congrArg (BitVec.getLsbD · i) h
      simp only [BitVec.getLsbD_and, hi, Bool.and_true] at this
      exact this.trans BitVec.getLsbD_zero
    exact ⟨hbit 0 rfl, hbit 1 rfl⟩
  · rintro ⟨hlocked, hfinished⟩
    refine BitVec.eq_of_getLsbD_eq fun i hi => ?_
    rw [BitVec.getLsbD_and]
    rcases Nat.lt_or_ge i 2 with hlt | hge
    · interval_cases i
      · rw [show c.flags.getLsbD 0 = false from hlocked]
        rfl
      · rw [show c.flags.getLsbD 1 = false from hfinished]
        rfl
    · have hmask : passFlags.getLsbD i = false :=
        Nat.testBit_lt_two_pow (show 3 < 2 ^ i from
          lt_of_lt_of_le (by decide : 3 < 2 ^ 2) (Nat.pow_le_pow_right (by decide) hge))
      simp [hmask]

end TaskContext

def SchedulerNode.context (node : SchedulerNode) : TaskContext :=
  ⟨node.contextFrame, node.flags, node.queueNum⟩

/-- The three lists of nodes. -/
abbrev Rings := SchedulerQueueNumber → List NodePtr

namespace Scheduler

def context (s : Scheduler) (p : NodePtr) : Option TaskContext :=
  (s.nodes p).map SchedulerNode.context

def next (s : Scheduler) (p : NodePtr) : NodePtr :=
  ((s.nodes p).map SchedulerNode.next).getD .null

def previous (s : Scheduler) (p : NodePtr) : NodePtr :=
  ((s.nodes p).map SchedulerNode.previous).getD .null

/-- The nodes met from `first` on. -/
def lists (s : Scheduler) : Rings := fun q =>
  (List.range (s.queues q).num).map fun i => s.next^[i] (s.queues q).first

/-- The nodes that the search of `scheduler_next_task` can meet. -/
def walk (s : Scheduler) : Rings := fun q =>
  if (s.queues q).first = .null then [] else s.lists q

section Lemmas

variable (s : Scheduler) (p : NodePtr) (node : SchedulerNode) (q : SchedulerQueueNumber)
  (queue : SchedulerQueue)

@[simp] theorem setNode_nodes : (s.setNode p node).nodes p = some node := by
  simp [setNode]

@[simp] theorem setNode_context :
    (s.setNode p node).context = Function.update s.context p (some node.context) := by
  funext p'
  by_cases h : p' = p
  · subst p'
    simp [context, setNode]
  · simp [context, setNode, h]

@[simp] theorem setNode_next : (s.setNode p node).next = Function.update s.next p node.next := by
  funext p'
  by_cases h : p' = p
  · subst p'
    simp [next, setNode]
  · simp [next, setNode, h]

@[simp] theorem setNode_previous :
    (s.setNode p node).previous = Function.update s.previous p node.previous := by
  funext p'
  by_cases h : p' = p
  · subst p'
    simp [previous, setNode]
  · simp [previous, setNode, h]

@[simp] theorem setQueue_context : (s.setQueue q queue).context = s.context := rfl

@[simp] theorem setQueue_next : (s.setQueue q queue).next = s.next := rfl

@[simp] theorem setQueue_previous : (s.setQueue q queue).previous = s.previous := rfl

@[simp] theorem setQueue_queues :
    (s.setQueue q queue).queues = Function.update s.queues q queue := rfl

@[simp] theorem free_context : (s.free p).context = Function.update s.context p none := by
  funext p'
  by_cases h : p' = p
  · subst p'
    simp [context, free]
  · simp [context, free, h]

theorem update_context_cases {context : NodePtr → Option TaskContext} {p p' : NodePtr}
    {c c' : TaskContext} (h : Function.update context p (some c) p' = some c') :
    p' = p ∧ c' = c ∨ p' ≠ p ∧ context p' = some c' := by
  rcases eq_or_ne p' p with rfl | hne
  · rw [Function.update_self, Option.some.injEq] at h
    exact .inl ⟨rfl, h.symm⟩
  · rw [Function.update_of_ne hne] at h
    exact .inr ⟨hne, h⟩

variable {s p node}

theorem context_of_nodes (h : s.nodes p = some node) : s.context p = some node.context := by
  rw [context, h]
  rfl

theorem next_of_nodes (h : s.nodes p = some node) : s.next p = node.next := by
  rw [next, h]
  rfl

theorem previous_of_nodes (h : s.nodes p = some node) : s.previous p = node.previous := by
  rw [previous, h]
  rfl

theorem exists_node {c : TaskContext} (h : s.context p = some c) :
    ∃ node, s.nodes p = some node ∧ node.context = c :=
  Option.map_eq_some_iff.mp h

theorem modifyNode_eq (f : SchedulerNode → SchedulerNode) (h : s.nodes p = some node) :
    s.modifyNode p f = some (s.setNode p (f node)) := by
  rw [modifyNode, h]
  rfl

private theorem loadNext_eq {c : TaskContext} (h : s.context p = some c) :
    s.loadNext p = some (s.next p) := by
  obtain ⟨node, hnode, -⟩ := exists_node h
  rw [loadNext, next_of_nodes hnode, hnode]
  rfl

private theorem loadPrevious_eq {c : TaskContext} (h : s.context p = some c) :
    s.loadPrevious p = some (s.previous p) := by
  obtain ⟨node, hnode, -⟩ := exists_node h
  rw [loadPrevious, previous_of_nodes hnode, hnode]
  rfl

end Lemmas

/-- Nothing but the links differs, and they are as given. -/
structure Relinked (s : Scheduler) (next previous : NodePtr → NodePtr) (t : Scheduler) :
    Prop where
  next : t.next = next
  previous : t.previous = previous
  context : t.context = s.context
  queues : t.queues = s.queues

private theorem storeNext_spec {s : Scheduler} {p : NodePtr} {c : TaskContext} (x : NodePtr)
    (h : s.context p = some c) :
    ∃ t, s.storeNext p x = some t ∧ Relinked s (Function.update s.next p x) s.previous t := by
  obtain ⟨node, hnode, -⟩ := exists_node h
  refine ⟨s.setNode p { node with next := x }, modifyNode_eq _ hnode, ?_, ?_, ?_, rfl⟩
  · exact s.setNode_next p _
  · rw [setNode_previous, Function.update_eq_self_iff, previous_of_nodes hnode]
  · rw [setNode_context, Function.update_eq_self_iff, context_of_nodes hnode]
    rfl

private theorem storePrevious_spec {s : Scheduler} {p : NodePtr} {c : TaskContext} (x : NodePtr)
    (h : s.context p = some c) :
    ∃ t, s.storePrevious p x = some t ∧
      Relinked s s.next (Function.update s.previous p x) t := by
  obtain ⟨node, hnode, -⟩ := exists_node h
  refine ⟨s.setNode p { node with previous := x }, modifyNode_eq _ hnode, ?_, ?_, ?_, rfl⟩
  · rw [setNode_next, Function.update_eq_self_iff, next_of_nodes hnode]
  · exact s.setNode_previous p _
  · rw [setNode_context, Function.update_eq_self_iff, context_of_nodes hnode]
    rfl

end Scheduler

/-- One queue is the given list: a ring of nodes that carry its number, entered at its head and
counted by `num`. -/
structure LinkedQueue (s : Scheduler) (q : SchedulerQueueNumber) (l : List NodePtr) : Prop where
  ring : IsRing s.next s.previous l
  first : (s.queues q).first = l.head?.getD .null
  num : (s.queues q).num = l.length
  owner : ∀ p ∈ l, ∃ c, s.context p = some c ∧ c.queueNum = q

namespace LinkedQueue

variable {s t : Scheduler} {l a b : List NodePtr} {q : SchedulerQueueNumber} {p : NodePtr}
  {node : SchedulerNode}

theorem allocated (h : LinkedQueue s q l) (hp : p ∈ l) :
    ∃ node, s.nodes p = some node ∧ node.queueNum = q := by
  obtain ⟨c, hc, rfl⟩ := h.owner p hp
  obtain ⟨node, hnode, rfl⟩ := Scheduler.exists_node hc
  exact ⟨node, hnode, rfl⟩

theorem congr (h : LinkedQueue s q l) (hqueue : t.queues q = s.queues q)
    (hcontext : ∀ p ∈ l, t.context p = s.context p) (hnext : ∀ p ∈ l, t.next p = s.next p)
    (hprevious : ∀ p ∈ l, t.previous p = s.previous p) : LinkedQueue t q l := by
  apply LinkedQueue.mk
  · exact h.ring.congr hnext hprevious
  · rw [hqueue, h.first]
  · rw [hqueue, h.num]
  · intro p hp
    rw [hcontext p hp]
    exact h.owner p hp

private theorem congr_nodes (h : LinkedQueue s q l) (hqueue : t.queues q = s.queues q)
    (hnodes : ∀ p ∈ l, t.nodes p = s.nodes p) : LinkedQueue t q l := by
  apply h.congr hqueue <;> intro p hp
  · rw [Scheduler.context, Scheduler.context, hnodes p hp]
  · rw [Scheduler.next, Scheduler.next, hnodes p hp]
  · rw [Scheduler.previous, Scheduler.previous, hnodes p hp]

theorem setQueue_flags (h : LinkedQueue s q l) (q' : SchedulerQueueNumber) (flags : BitVec 64) :
    LinkedQueue (s.setQueue q' { s.queues q' with flags }) q l := by
  rcases eq_or_ne q q' with rfl | hne
  · exact ⟨h.ring, by simp [h.first], by simp [h.num], h.owner⟩
  · exact ⟨h.ring, by simp [hne, h.first], by simp [hne, h.num], h.owner⟩

theorem setNode {node' : SchedulerNode} (h : LinkedQueue s q l) (hnode : s.nodes p = some node)
    (hqueueNum : node'.queueNum = node.queueNum) (hnext : node'.next = node.next)
    (hprevious : node'.previous = node.previous) : LinkedQueue (s.setNode p node') q l := by
  have hnext' : (s.setNode p node').next = s.next := by
    rw [Scheduler.setNode_next, hnext, ← Scheduler.next_of_nodes hnode, Function.update_eq_self]
  have hprevious' : (s.setNode p node').previous = s.previous := by
    rw [Scheduler.setNode_previous, hprevious, ← Scheduler.previous_of_nodes hnode,
      Function.update_eq_self]
  refine ⟨?_, h.first, h.num, ?_⟩
  · rw [hnext', hprevious']
    exact h.ring
  · intro p' hp'
    obtain ⟨c, hc, hq⟩ := h.owner p' hp'
    rw [Scheduler.setNode_context]
    rcases eq_or_ne p' p with rfl | hne
    · rw [Scheduler.context_of_nodes hnode, Option.some.injEq] at hc
      refine ⟨node'.context, Function.update_self .., ?_⟩
      rw [← hq, ← hc]
      exact hqueueNum
    · exact ⟨c, by rw [Function.update_of_ne hne, hc], hq⟩

theorem rotate (h : LinkedQueue s q (a ++ p :: b)) :
    LinkedQueue (s.setQueue q { s.queues q with first := s.next p }) q (b ++ a ++ [p]) := by
  have hring : IsRing s.next s.previous (b ++ a ++ [p]) := by
    have := h.ring
    rw [show a ++ p :: b = (a ++ [p]) ++ b by simp] at this
    rw [List.append_assoc]
    exact this.rotate
  refine ⟨hring, ?_, ?_, ?_⟩
  · rw [Scheduler.setQueue_queues, Function.update_self]
    cases hhead : (b ++ a ++ [p]).head? with
    | none => simp at hhead
    | some x => exact hring.next_last hhead
  · rw [Scheduler.setQueue_queues, Function.update_self]
    simp only [h.num, List.length_append, List.length_cons, List.length_nil]
    omega
  · intro p' hp'
    apply h.owner p'
    simp only [List.mem_append, List.mem_cons] at hp' ⊢
    tauto

theorem lists_eq (h : LinkedQueue s q l) : s.lists q = l := by
  refine List.ext_getElem? ?_
  intro i
  rw [Scheduler.lists, List.getElem?_map, h.num]
  by_cases hi : i < l.length
  · rw [List.getElem?_range hi, Option.map_some]
    cases l with
    | nil => simp at hi
    | cons x l =>
        rw [h.first, List.head?_cons, Option.getD_some, ← h.ring.iterate_next,
          Nat.mod_eq_of_lt hi]
  · rw [List.getElem?_eq_none (by rwa [List.length_range, ← Nat.not_lt]),
      List.getElem?_eq_none (Nat.not_lt.mp hi)]
    rfl

end LinkedQueue

/-- The other queues are as they were, and so are the links of the nodes outside the list. -/
structure Confined (s : Scheduler) (q : SchedulerQueueNumber) (l : List NodePtr)
    (t : Scheduler) : Prop where
  queues : ∀ q' ≠ q, t.queues q' = s.queues q'
  next : ∀ p ∉ l, t.next p = s.next p
  previous : ∀ p ∉ l, t.previous p = s.previous p

namespace Confined

variable {s t u : Scheduler} {l : List NodePtr} {q : SchedulerQueueNumber} {p : NodePtr}

theorem setQueue (h : Confined s q l t) (queue : SchedulerQueue) :
    Confined s q l (t.setQueue q queue) := by
  refine ⟨?_, h.next, h.previous⟩
  intro q' hne
  rw [Scheduler.setQueue_queues, Function.update_of_ne hne, h.queues q' hne]

theorem setNode (h : Confined s q l t) (hp : p ∈ l) (node : SchedulerNode) :
    Confined s q l (t.setNode p node) := by
  refine ⟨h.queues, ?_, ?_⟩ <;> intro p' hp' <;> have hne : p' ≠ p := fun heq => hp' (heq ▸ hp)
  · rw [Scheduler.setNode_next, Function.update_of_ne hne, h.next p' hp']
  · rw [Scheduler.setNode_previous, Function.update_of_ne hne, h.previous p' hp']

theorem refl (s : Scheduler) (q : SchedulerQueueNumber) (l : List NodePtr) : Confined s q l s :=
  ⟨fun _ _ => rfl, fun _ _ => rfl, fun _ _ => rfl⟩

theorem trans (h : Confined s q l t) (h' : Confined t q l u) : Confined s q l u := by
  refine ⟨?_, ?_, ?_⟩
  · exact fun q' hne => (h'.queues q' hne).trans (h.queues q' hne)
  · exact fun p hp => (h'.next p hp).trans (h.next p hp)
  · exact fun p hp => (h'.previous p hp).trans (h.previous p hp)

end Confined

/-- The queues are the given lists: each is a ring of nodes that carry its number, entered at
its head and counted by `num`. -/
structure Linked (s : Scheduler) (rings : Rings) : Prop where
  ring : ∀ q, IsRing s.next s.previous (rings q)
  first : ∀ q, (s.queues q).first = (rings q).head?.getD .null
  num : ∀ q, (s.queues q).num = (rings q).length
  owner : ∀ q, ∀ p ∈ rings q, ∃ c, s.context p = some c ∧ c.queueNum = q

namespace Linked

variable {s t : Scheduler} {rings : Rings} {q : SchedulerQueueNumber} {p : NodePtr}
  {node : SchedulerNode}

theorem queue (h : Linked s rings) (q : SchedulerQueueNumber) : LinkedQueue s q (rings q) :=
  ⟨h.ring q, h.first q, h.num q, h.owner q⟩

theorem of_queues (h : ∀ q, LinkedQueue s q (rings q)) : Linked s rings :=
  ⟨fun q => (h q).ring, fun q => (h q).first, fun q => (h q).num, fun q => (h q).owner⟩

theorem separate {q' : SchedulerQueueNumber} (h : Linked s rings) (hp : p ∈ rings q)
    (hp' : p ∈ rings q') : q = q' := by
  obtain ⟨c, hc, rfl⟩ := h.owner q p hp
  obtain ⟨c', hc', rfl⟩ := h.owner q' p hp'
  rw [hc, Option.some.injEq] at hc'
  rw [hc']

private theorem ne_of_queue_ne {q' : SchedulerQueueNumber} {p' : NodePtr} (h : Linked s rings)
    (hq : q' ≠ q) (hp' : p' ∈ rings q') (hp : p ∈ rings q) : p' ≠ p := by
  rintro rfl
  exact hq (h.separate hp' hp)

theorem allocated (h : Linked s rings) (hp : p ∈ rings q) :
    ∃ node, s.nodes p = some node ∧ node.queueNum = q :=
  (h.queue q).allocated hp

private theorem update {l : List NodePtr} (h : Linked s rings) (queue : SchedulerQueue)
    (hqueues : t.queues = Function.update s.queues q queue)
    (hcontext : ∀ q' ≠ q, ∀ p ∈ rings q', t.context p = s.context p)
    (hnext : ∀ q' ≠ q, ∀ p ∈ rings q', t.next p = s.next p)
    (hprevious : ∀ q' ≠ q, ∀ p ∈ rings q', t.previous p = s.previous p)
    (hring : IsRing t.next t.previous l) (hfirst : queue.first = l.head?.getD .null)
    (hnum : queue.num = l.length)
    (howner : ∀ p ∈ l, ∃ c, t.context p = some c ∧ c.queueNum = q) :
    Linked t (Function.update rings q l) := by
  apply of_queues
  intro q'
  rcases eq_or_ne q' q with rfl | hne
  · rw [Function.update_self]
    exact ⟨hring, by rw [hqueues, Function.update_self, hfirst],
      by rw [hqueues, Function.update_self, hnum], howner⟩
  · rw [Function.update_of_ne hne]
    exact (h.queue q').congr (by rw [hqueues, Function.update_of_ne hne]) (hcontext q' hne)
      (hnext q' hne) (hprevious q' hne)

theorem confined {l : List NodePtr} (h : Linked s rings) (hconfined : Confined s q (rings q) t)
    (hcontext : ∀ p ∉ rings q, t.context p = s.context p) (hqueue : LinkedQueue t q l) :
    Linked t (Function.update rings q l) := by
  have hoff : ∀ q' ≠ q, ∀ p ∈ rings q', p ∉ rings q :=
    fun q' hne p hp hp' => hne (h.separate hp hp')
  apply of_queues
  intro q'
  rcases eq_or_ne q' q with rfl | hne
  · rwa [Function.update_self]
  · rw [Function.update_of_ne hne]
    apply (h.queue q').congr (hconfined.queues q' hne)
    · exact fun p hp => hcontext p (hoff q' hne p hp)
    · exact fun p hp => hconfined.next p (hoff q' hne p hp)
    · exact fun p hp => hconfined.previous p (hoff q' hne p hp)

theorem congr (h : Linked s rings) (hqueues : t.queues = s.queues)
    (hnodes : ∀ q, ∀ p ∈ rings q, t.nodes p = s.nodes p) : Linked t rings := by
  apply of_queues
  intro q
  exact (h.queue q).congr_nodes (congrFun hqueues q) (hnodes q)

theorem setQueue_flags (h : Linked s rings) (q : SchedulerQueueNumber) (flags : BitVec 64) :
    Linked (s.setQueue q { s.queues q with flags }) rings := by
  apply of_queues
  intro q'
  exact (h.queue q').setQueue_flags q flags

theorem setNode {node' : SchedulerNode} (h : Linked s rings) (hnode : s.nodes p = some node)
    (hqueueNum : node'.queueNum = node.queueNum) (hnext : node'.next = node.next)
    (hprevious : node'.previous = node.previous) : Linked (s.setNode p node') rings := by
  apply of_queues
  intro q
  exact (h.queue q).setNode hnode hqueueNum hnext hprevious

theorem iterate_next (h : Linked s rings) {i : Nat} (hi : i < (s.queues q).num) :
    (rings q)[i]? = some (s.next^[i] (s.queues q).first) := by
  rw [← (h.queue q).lists_eq, Scheduler.lists, List.getElem?_map, List.getElem?_range hi]
  rfl

theorem lists_eq (h : Linked s rings) : s.lists = rings := by
  funext q
  exact (h.queue q).lists_eq

end Linked

/-! ## Enqueueing and dequeueing -/

section Queueing

variable {s : Scheduler} {rings : Rings} {q : SchedulerQueueNumber} {p : NodePtr}
  {node : SchedulerNode} {a b : List NodePtr}

private theorem schedulerEnqueueTask_empty (h : Linked s rings) (hnode : s.nodes p = some node)
    (hnew : ∀ q, p ∉ rings q) (hq : node.queueNum = q) (hl : rings q = []) :
    ∃ t, schedulerEnqueueTask p s = some t ∧
      Linked t (Function.update rings q ([p])) ∧
      t.context = s.context ∧ ∀ q, (t.queues q).flags = (s.queues q).flags := by
  have hne : ∀ {q' p'}, p' ∈ rings q' → p' ≠ p := fun hp' heq => hnew _ (heq ▸ hp')
  have hcontext := Scheduler.context_of_nodes hnode
  have hnum : (s.queues q).num = 0 := by rw [h.num, hl, List.length_nil]
  obtain ⟨s₁, e₁, r₁⟩ := Scheduler.storePrevious_spec p hcontext
  obtain ⟨s₂, e₂, r₂⟩ := Scheduler.storeNext_spec p (r₁.context ▸ hcontext)
  have hqueues : s₂.queues = s.queues := r₂.queues.trans r₁.queues
  refine ⟨(s₂.setQueue q { s.queues q with first := p }).setQueue q
    { s.queues q with first := p, num := 1 }, ?_, ?_, ?_, ?_⟩
  · simp [schedulerEnqueueTask, hnode, hq, hnum, e₁, e₂, hqueues]
  · refine h.update { s.queues q with first := p, num := 1 } ?_ ?_ ?_ ?_ ?_ rfl rfl ?_
    · simp [hqueues]
    · intro q' _ p' hp'
      simp [r₂.context, r₁.context]
    · intro q' _ p' hp'
      simp [r₂.next, r₁.next, hne hp']
    · intro q' _ p' hp'
      simp [r₂.previous, r₁.previous, hne hp']
    · exact IsRing.singleton (by simp [r₂.next]) (by simp [r₂.previous, r₁.previous])
    · intro p' hp'
      rw [List.mem_singleton] at hp'
      exact ⟨node.context, by simp [hp', r₂.context, r₁.context, hcontext], hq⟩
  · simp [r₂.context, r₁.context]
  · intro q'
    rcases eq_or_ne q' q with rfl | hne' <;> simp [*]

private theorem schedulerEnqueueTask_insert {x : NodePtr} {l : List NodePtr} (h : Linked s rings)
    (hnode : s.nodes p = some node) (hnew : ∀ q, p ∉ rings q) (hq : node.queueNum = q)
    (hl : rings q = x :: l) :
    ∃ t, schedulerEnqueueTask p s = some t ∧
      Linked t (Function.update rings q (x :: l ++ [p])) ∧
      t.context = s.context ∧ ∀ q, (t.queues q).flags = (s.queues q).flags := by
  have hne : ∀ {q' p'}, p' ∈ rings q' → p' ≠ p := fun hp' heq => hnew _ (heq ▸ hp')
  have hcontext := Scheduler.context_of_nodes hnode
  have hnum : (s.queues q).num = l.length + 1 := by rw [h.num, hl, List.length_cons]
  have hfirst : (s.queues q).first = x := by
    rw [h.first, hl]
    rfl
  have hx : x ∈ rings q := by simp [hl]
  obtain ⟨cx, hcx, -⟩ := h.owner q x hx
  have hpreviousMem : s.previous x ∈ rings q := (h.ring q).previous_mem hx
  obtain ⟨cl, hcl, -⟩ := h.owner q _ hpreviousMem
  have hload := Scheduler.loadPrevious_eq hcx
  obtain ⟨s₁, e₁, r₁⟩ := Scheduler.storePrevious_spec (s.previous x) hcontext
  obtain ⟨s₂, e₂, r₂⟩ := Scheduler.storeNext_spec x (r₁.context ▸ hcontext)
  have hcontext₂ : s₂.context = s.context := r₂.context.trans r₁.context
  have hload₂ : s₂.loadPrevious x = some (s.previous x) := by
    rw [Scheduler.loadPrevious_eq (hcontext₂ ▸ hcx), r₂.previous, r₁.previous,
      Function.update_of_ne (hne hx)]
  obtain ⟨s₃, e₃, r₃⟩ := Scheduler.storeNext_spec p (hcontext₂ ▸ hcl)
  have hcontext₃ : s₃.context = s.context := r₃.context.trans hcontext₂
  obtain ⟨s₄, e₄, r₄⟩ := Scheduler.storePrevious_spec p (hcontext₃ ▸ hcx)
  have hcontext₄ : s₄.context = s.context := r₄.context.trans hcontext₃
  have hqueues : s₄.queues = s.queues := by
    rw [r₄.queues, r₃.queues, r₂.queues, r₁.queues]
  have hnext : s₄.next =
      Function.update (Function.update s.next p x) (s.previous x) p := by
    rw [r₄.next, r₃.next, r₂.next, r₁.next]
  have hprevious : s₄.previous =
      Function.update (Function.update s.previous p (s.previous x)) x p := by
    rw [r₄.previous, r₃.previous, r₂.previous, r₁.previous]
  refine ⟨s₄.setQueue q { s.queues q with num := (s.queues q).num + 1 }, ?_, ?_, ?_, ?_⟩
  · simp [schedulerEnqueueTask, hnode, hq, hnum, hfirst, hload, e₁, e₂, hload₂, e₃, e₄, hqueues]
  · -- A node of another ring is neither the new one nor a neighbour of it.
    have hother : ∀ q' ≠ q, ∀ p' ∈ rings q', p' ≠ p ∧ p' ≠ x ∧ p' ≠ s.previous x := by
      intro q' hq' p' hp'
      exact ⟨hne hp', h.ne_of_queue_ne hq' hp' hx, h.ne_of_queue_ne hq' hp' hpreviousMem⟩
    refine h.update { s.queues q with num := (s.queues q).num + 1 } ?_ ?_ ?_ ?_ ?_ ?_ ?_ ?_
    · simp [hqueues]
    · intro q' _ p' _
      simp [hcontext₄]
    · intro q' hq' p' hp'
      obtain ⟨h₁, -, h₃⟩ := hother q' hq' p' hp'
      simp [hnext, h₁, h₃]
    · intro q' hq' p' hp'
      obtain ⟨h₁, h₂, -⟩ := hother q' hq' p' hp'
      simp [hprevious, h₁, h₂]
    · rw [Scheduler.setQueue_next, Scheduler.setQueue_previous, hnext, hprevious]
      exact (hl ▸ h.ring q).insert rfl (hl ▸ hnew q)
    · simp [hfirst]
    · simp [hnum]
    · intro p' hp'
      rw [Scheduler.setQueue_context, hcontext₄]
      rcases List.mem_append.mp hp' with hp' | hp'
      · exact h.owner q p' (hl ▸ hp')
      · rw [List.mem_singleton.mp hp']
        exact ⟨node.context, hcontext, hq⟩
  · simp [hcontext₄]
  · intro q'
    rcases eq_or_ne q' q with rfl | hne' <;> simp [*]

theorem schedulerEnqueueTask_spec (h : Linked s rings) (hnode : s.nodes p = some node)
    (hnew : ∀ q, p ∉ rings q) :
    ∃ t, schedulerEnqueueTask p s = some t ∧
      Linked t (Function.update rings node.queueNum (rings node.queueNum ++ [p])) ∧
      t.context = s.context ∧ ∀ q, (t.queues q).flags = (s.queues q).flags := by
  cases hl : rings node.queueNum with
  | nil => exact schedulerEnqueueTask_empty h hnode hnew rfl hl
  | cons x l => exact schedulerEnqueueTask_insert h hnode hnew rfl hl

/-- A node is taken out of the list of its queue, whose `first` is not moved. -/
structure Unlinked (s : Scheduler) (q : SchedulerQueueNumber) (l rest : List NodePtr)
    (t : Scheduler) : Prop extends Confined s q l t where
  ring : IsRing t.next t.previous rest
  queue : t.queues q = { s.queues q with
    first := if rest = [] then .null else (s.queues q).first
    num := rest.length }

private theorem schedulerDequeueTask_single (h : LinkedQueue s q [p]) :
    ∃ t, schedulerDequeueTask p s = some t ∧ Unlinked s q [p] [] t ∧ t.context = s.context := by
  obtain ⟨node, hnode, hq⟩ := h.allocated List.mem_cons_self
  have hnum : (s.queues q).num = 1 := h.num
  refine ⟨(s.setQueue q { s.queues q with first := .null }).setQueue q
    { s.queues q with first := .null, num := 0 }, ?_, ⟨?_, ?_, ?_⟩, rfl⟩
  · simp [schedulerDequeueTask, hnode, hq, hnum]
  · exact ((Confined.refl s q _).setQueue _).setQueue _
  · exact IsRing.nil _ _
  · simp

private theorem schedulerDequeueTask_remove (h : LinkedQueue s q (a ++ p :: b))
    (hempty : b ++ a ≠ []) :
    ∃ t, schedulerDequeueTask p s = some t ∧ Unlinked s q (a ++ p :: b) (b ++ a) t ∧
      t.context = s.context := by
  have hp : p ∈ a ++ p :: b := by simp
  obtain ⟨node, hnode, hq⟩ := h.allocated hp
  have hcontext := Scheduler.context_of_nodes hnode
  have hnum : (s.queues q).num = (b ++ a).length + 1 := by
    rw [h.num]
    simp
    omega
  have hlength : ¬(s.queues q).num ≤ 1 := by
    have := List.length_pos_of_ne_nil hempty
    omega
  have hnextMem : s.next p ∈ a ++ p :: b := h.ring.next_mem hp
  have hpreviousMem : s.previous p ∈ a ++ p :: b := h.ring.previous_mem hp
  obtain ⟨cn, hcn, -⟩ := h.owner _ hnextMem
  obtain ⟨cp, hcp, -⟩ := h.owner _ hpreviousMem
  -- Seen from the node, the ring is the rest of the list followed by the node.
  have hring : IsRing s.next s.previous (b ++ a ++ [p]) := h.rotate.ring
  have hnextNe : s.next p ≠ p := by
    obtain ⟨x, l, hl⟩ := List.exists_cons_of_ne_nil hempty
    rw [hl] at hring
    rw [hring.next_last rfl]
    rintro rfl
    exact absurd hring.nodup (by simp)
  have hloadN := Scheduler.loadNext_eq hcontext
  have hloadP := Scheduler.loadPrevious_eq hcontext
  obtain ⟨s₁, e₁, r₁⟩ := Scheduler.storePrevious_spec (s.previous p) hcn
  have hloadN₁ : s₁.loadNext p = some (s.next p) := by
    rw [Scheduler.loadNext_eq (r₁.context ▸ hcontext), r₁.next]
  have hloadP₁ : s₁.loadPrevious p = some (s.previous p) := by
    rw [Scheduler.loadPrevious_eq (r₁.context ▸ hcontext), r₁.previous,
      Function.update_of_ne hnextNe.symm]
  obtain ⟨s₂, e₂, r₂⟩ := Scheduler.storeNext_spec (s.next p) (r₁.context ▸ hcp)
  have hqueues : s₂.queues = s.queues := r₂.queues.trans r₁.queues
  have hnext : s₂.next = Function.update s.next (s.previous p) (s.next p) := by
    rw [r₂.next, r₁.next]
  have hprevious : s₂.previous = Function.update s.previous (s.next p) (s.previous p) := by
    rw [r₂.previous, r₁.previous]
  refine ⟨s₂.setQueue q { s.queues q with num := (s.queues q).num - 1 }, ?_,
    ⟨Confined.setQueue ⟨?_, ?_, ?_⟩ _, ?_, ?_⟩, r₂.context.trans r₁.context⟩
  · simp [schedulerDequeueTask, hnode, hq, hlength, hloadN, hloadP, e₁, hloadN₁, hloadP₁, e₂,
      hqueues]
  · intro q' _
    rw [hqueues]
  · intro p' hp'
    have hne : p' ≠ s.previous p := fun heq => hp' (heq ▸ hpreviousMem)
    rw [hnext, Function.update_of_ne hne]
  · intro p' hp'
    have hne : p' ≠ s.next p := fun heq => hp' (heq ▸ hnextMem)
    rw [hprevious, Function.update_of_ne hne]
  · rw [Scheduler.setQueue_next, Scheduler.setQueue_previous, hnext, hprevious]
    exact hring.remove hempty
  · rw [Scheduler.setQueue_queues, Function.update_self, if_neg hempty, hnum]
    rfl

private theorem schedulerDequeueTask_spec (h : LinkedQueue s q (a ++ p :: b)) :
    ∃ t, schedulerDequeueTask p s = some t ∧ Unlinked s q (a ++ p :: b) (b ++ a) t ∧
      t.context = s.context := by
  by_cases hempty : b ++ a = []
  · obtain ⟨rfl, rfl⟩ := List.append_eq_nil_iff.mp hempty
    exact schedulerDequeueTask_single h
  · exact schedulerDequeueTask_remove h hempty

theorem schedulerFreeTask_spec (h : LinkedQueue s q (a ++ p :: b)) (hp : p ≠ .null ∧ p ≠ .idle) :
    ∃ t, schedulerFreeTask p s = some t ∧ Unlinked s q (a ++ p :: b) (b ++ a) t ∧
      t.context = Function.update s.context p none := by
  obtain ⟨t, ht, hunlinked, hcontext⟩ := schedulerDequeueTask_spec h
  have hlinks : ∀ p' ≠ p, (t.free p).next p' = t.next p' ∧ (t.free p).previous p' = t.previous p' := by
    intro p' hne
    simp [Scheduler.next, Scheduler.previous, Scheduler.free, hne]
  have hnew : ∀ p' ∈ b ++ a, p' ≠ p := by
    have := h.rotate.ring.nodup
    rw [List.nodup_append_comm, List.singleton_append, List.nodup_cons] at this
    exact fun p' hp' heq => this.1 (heq ▸ hp')
  have hoff : ∀ p' ∉ a ++ p :: b, p' ≠ p := by
    rintro p' hp' rfl
    simp at hp'
  refine ⟨t.free p, ?_, ⟨⟨hunlinked.queues, ?_, ?_⟩, ?_, hunlinked.queue⟩, ?_⟩
  · simp [schedulerFreeTask, hp.1, hp.2, ht]
  · intro p' hp'
    rw [(hlinks p' (hoff p' hp')).1, hunlinked.next p' hp']
  · intro p' hp'
    rw [(hlinks p' (hoff p' hp')).2, hunlinked.previous p' hp']
  · exact hunlinked.ring.congr (fun p' hp' => (hlinks p' (hnew p' hp')).1)
      (fun p' hp' => (hlinks p' (hnew p' hp')).2)
  · rw [Scheduler.free_context, hcontext]

end Queueing

end VisualOS.Kernel
