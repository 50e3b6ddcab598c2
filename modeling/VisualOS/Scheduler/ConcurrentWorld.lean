import VisualOS.Scheduler.Calls
import VisualOS.Scheduler.ConcurrentCode

/-!
# What the processors hold

Beside the memory of the scheduler stands who has taken what: a task, a node that is not linked
in yet, a queue.  An access of one processor leaves what the others have taken alone.
-/

namespace VisualOS.Kernel

open Framework

/-- The list is the whole queue. -/
structure QueueLinks (next previous : NodePtr → NodePtr) (queue : SchedulerQueue)
    (l : List NodePtr) : Prop where
  ring : IsRing next previous l
  first : queue.first = l.head?.getD .null
  num : queue.num = l.length

private theorem QueueLinks.congr {next previous next' previous' : NodePtr → NodePtr}
    {queue : SchedulerQueue} {l : List NodePtr} (h : QueueLinks next previous queue l)
    (hnext : ∀ p ∈ l, next' p = next p) (hprevious : ∀ p ∈ l, previous' p = previous p) :
    QueueLinks next' previous' queue l :=
  ⟨h.ring.congr hnext hprevious, h.first, h.num⟩

theorem QueueLinks.rotate {p : NodePtr} {next previous : NodePtr → NodePtr} {queue : SchedulerQueue}
    {a b : List NodePtr} (h : QueueLinks next previous queue (a ++ p :: b)) :
    QueueLinks next previous { queue with first := next p } (b ++ a ++ [p]) := by
  have hring : IsRing next previous (b ++ a ++ [p]) := by
    have := h.ring
    rw [show a ++ p :: b = (a ++ [p]) ++ b by simp] at this
    rw [List.append_assoc]
    exact this.rotate
  refine ⟨hring, ?_, ?_⟩
  · cases hhead : (b ++ a ++ [p]).head? with
    | none => simp at hhead
    | some x => exact hring.next_last hhead
  · simp only [h.num, List.length_append, List.length_cons, List.length_nil]
    omega

/-- Where a node is.  A new one stays with the processor that made it until it is linked into its
queue; there it may be locked. -/
inductive Place (C : Type)
  | absent
  | idle
  | pending (c : C)
  | queued (q : SchedulerQueueNumber) (owner : Option C)

namespace Place

variable {C : Type}

def owner : Place C → Option C
  | pending c => some c
  | queued _ owner => owner
  | _ => none

def In (q : SchedulerQueueNumber) (x : Place C) : Prop := ∃ owner, x = .queued q owner

@[simp] theorem queued_in {q q' : SchedulerQueueNumber} {owner : Option C} :
    (queued q owner).In q' ↔ q = q' := by
  simp [In]

@[simp] theorem not_absent_in {q : SchedulerQueueNumber} : ¬(absent : Place C).In q := by
  simp [In]

@[simp] theorem not_pending_in {q : SchedulerQueueNumber} {c : C} : ¬(pending c).In q := by
  simp [In]

theorem In.unique {x : Place C} {q q' : SchedulerQueueNumber} (h : x.In q) (h' : x.In q') :
    q = q' := by
  obtain ⟨owner, rfl⟩ := h
  exact queued_in.mp h'

/-- What is stored at a place.  The search looks at nodes without any lock, so the links of a node
stay within its queue at all times. -/
inductive Describes (queue : SchedulerQueueNumber → NodePtr → Prop) :
    Place C → Option SchedulerNode → Prop
  | absent : Describes queue .absent none
  | idle (node : SchedulerNode) : Describes queue .idle (some node)
  | pending (c : C) (node : SchedulerNode) : Describes queue (.pending c) (some node)
  | queued {q : SchedulerQueueNumber} {owner : Option C} {node : SchedulerNode} :
      node.queueNum = q → node.context.locked = owner.isSome → queue q node.next →
      Describes queue (.queued q owner) (some node)

private theorem Describes.mono {queue queue' : SchedulerQueueNumber → NodePtr → Prop} {x : Place C}
    {node : Option SchedulerNode} (h : x.Describes queue node)
    (hqueue : ∀ q contents, x.In q → node = some contents → queue q contents.next →
      queue' q contents.next) : x.Describes queue' node := by
  cases h with
  | absent => exact .absent
  | idle node => exact .idle node
  | pending c node => exact .pending c node
  | queued hq hlocked hnext => exact .queued hq hlocked (hqueue _ _ (queued_in.mpr rfl) rfl hnext)

end Place

/-- The node is there, with its flag set. -/
def SharedScheduler.Locked {C : Type} (s : SharedScheduler C) (p : NodePtr) : Prop :=
  ∃ node, s.nodes p = some node ∧ node.context.locked = true

structure SchedulerWorld (C : Type) extends SharedScheduler C where
  place : NodePtr → Place C
  holder : SchedulerQueueNumber → Option C

namespace SchedulerWorld

variable {C : Type}

/-- The node belongs to the queue, linked in or about to be. -/
def Queued (w : SchedulerWorld C) (q : SchedulerQueueNumber) (p : NodePtr) : Prop :=
  (w.place p).In q

/-- What holds between any two accesses. -/
structure Sound (w : SchedulerWorld C) : Prop where
  null : w.place .null = .absent
  idle : ∀ p, w.place p = .idle ↔ p = .idle
  node : ∀ p, (w.place p).Describes w.Queued (w.nodes p)
  first : ∀ q, (w.queues q).first = .null ∨ w.Queued q (w.queues q).first
  locked : ∀ q, (w.queues q).flags.getLsbD schedulerFlagLocked = (w.holder q).isSome
  linked : ∀ q, w.holder q = none →
    ∃ l, (∀ p, p ∈ l ↔ w.Queued q p) ∧ QueueLinks w.next w.previous (w.queues q) l
  cursor : ∀ c p, w.cursor c = some p → ∃ q, w.Queued q p

/-- What a processor has taken is as it was. -/
structure Keeps (c : C) (w w' : SchedulerWorld C) : Prop where
  place : ∀ p, (w.place p).owner = some c ∨ (w'.place p).owner = some c →
    w'.place p = w.place p ∧ w'.context p = w.context p
  pending : ∀ p, w.place p = .pending c → w'.nodes p = w.nodes p
  holder : ∀ q, w'.holder q = some c ↔ w.holder q = some c
  queue : ∀ q, w.holder q = some c → w'.queues q = w.queues q
  members : ∀ q, w.holder q = some c → ∀ p, w'.Queued q p ↔ w.Queued q p
  links : ∀ q, w.holder q = some c → ∀ p, w.Queued q p →
    w'.next p = w.next p ∧ w'.previous p = w.previous p
  cursor : w'.cursor c = w.cursor c

/-- One access of a processor.  A node leaves its queue only to be freed. -/
structure Access (c : C) (w w' : SchedulerWorld C) : Prop where
  sound : w'.Sound
  queued : ∀ q p, w.Queued q p → w'.Queued q p ∨ w'.nodes p = none
  keeps : ∀ c' ≠ c, Keeps c' w w'

section Lemmas

variable {w : SchedulerWorld C} {q : SchedulerQueueNumber} {p : NodePtr}

theorem Sound.exists_node (h : w.Sound) (hp : w.Queued q p) :
    ∃ node owner, w.place p = .queued q owner ∧ w.nodes p = some node ∧ node.queueNum = q ∧
      node.context.locked = owner.isSome ∧ w.Queued q node.next := by
  obtain ⟨owner, hplace⟩ := hp
  have hnode := h.node p
  rw [hplace] at hnode
  generalize hnodes : w.nodes p = contents at hnode
  cases hnode with
  | queued hq hlocked hnext => exact ⟨_, owner, hplace, rfl, hq, hlocked, hnext⟩

theorem Sound.next (h : w.Sound) (hp : w.Queued q p) : w.Queued q (w.next p) := by
  obtain ⟨node, -, -, hnode, -, -, hnext⟩ := h.exists_node hp
  rwa [Scheduler.next_of_nodes hnode]

theorem Sound.ne_null (h : w.Sound) (hp : w.Queued q p) : p ≠ .null := by
  rintro rfl
  rw [Queued, h.null] at hp
  exact Place.not_absent_in hp

theorem Sound.ne_idle (h : w.Sound) (hp : w.Queued q p) : p ≠ .idle := by
  rintro rfl
  rw [Queued, (h.idle _).mpr rfl] at hp
  obtain ⟨_, hp⟩ := hp
  exact absurd hp (by simp)

theorem Access.refl (c : C) (h : w.Sound) : Access c w w :=
  ⟨h, fun _ _ => .inl, fun _ _ => ⟨fun _ _ => ⟨rfl, rfl⟩, fun _ _ => rfl, fun _ => Iff.rfl, fun _ _ => rfl,
    fun _ _ _ => Iff.rfl, fun _ _ _ _ => ⟨rfl, rfl⟩, rfl⟩⟩

end Lemmas

/-- A store to a node, or its allocation, and where it is then. -/
def move (w : SchedulerWorld C) (t : Scheduler) (p : NodePtr) (x : Place C) : SchedulerWorld C where
  toSharedScheduler := w.toSharedScheduler.put t
  place := Function.update w.place p x
  holder := w.holder

/-- A store to a queue, and who holds it then. -/
def hold (w : SchedulerWorld C) (t : Scheduler) (q : SchedulerQueueNumber) (x : Option C) :
    SchedulerWorld C where
  toSharedScheduler := w.toSharedScheduler.put t
  place := w.place
  holder := Function.update w.holder q x

section Accesses

variable {w : SchedulerWorld C} {c : C} {q : SchedulerQueueNumber} {p : NodePtr} {x : Place C}

@[simp] theorem move_toScheduler (t : Scheduler) : (w.move t p x).toScheduler = t := rfl

@[simp] theorem move_place_self (t : Scheduler) : (w.move t p x).place p = x :=
  Function.update_self ..

theorem move_place_of_ne (t : Scheduler) {p' : NodePtr} (hne : p' ≠ p) :
    (w.move t p x).place p' = w.place p' :=
  Function.update_of_ne hne ..

theorem move_queued_self (t : Scheduler) : (w.move t p x).Queued q p ↔ x.In q := by
  rw [Queued, move_place_self]

theorem move_queued_of_ne (t : Scheduler) {p' : NodePtr} (hne : p' ≠ p) :
    (w.move t p x).Queued q p' ↔ w.Queued q p' := by
  rw [Queued, move_place_of_ne t hne, Queued]

theorem Sound.setNode (h : w.Sound) {node : SchedulerNode} (hidle : p ≠ .idle) (hnull : p ≠ .null)
    (hx : x ≠ .idle) (hmono : ∀ q, w.Queued q p → x.In q)
    (hnode : x.Describes (fun q r => w.Queued q r ∨ r = p ∧ x.In q) (some node))
    (howner : ∀ c' ≠ c, (w.place p).owner ≠ some c' ∧ x.owner ≠ some c' ∨
      x = w.place p ∧ w.context p = some node.context ∧ x ≠ .pending c')
    (hlinks : ∀ q, x.In q → w.holder q = some c ∨
      w.Queued q p ∧ node.next = w.next p ∧ node.previous = w.previous p) :
    Access c w (w.move (w.setNode p node) p x) := by
  have hqueued : ∀ q r, w.Queued q r ∨ r = p ∧ x.In q →
      (w.move (w.setNode p node) p x).Queued q r := by
    intro q r hr
    rcases eq_or_ne r p with rfl | hne
    · rw [move_queued_self]
      rcases hr with hr | ⟨-, hr⟩
      · exact hmono q hr
      · exact hr
    · rw [move_queued_of_ne _ hne]
      exact hr.resolve_right fun hr => hne hr.1
  -- A queue that this processor does not hold is as it was, with all its links.
  have hsame : ∀ q, w.holder q ≠ some c → ∀ r,
      ((w.move (w.setNode p node) p x).Queued q r ↔ w.Queued q r) ∧
        (w.Queued q r → (w.setNode p node).next r = w.next r ∧
          (w.setNode p node).previous r = w.previous r) := by
    intro q hq r
    rw [Scheduler.setNode_next, Scheduler.setNode_previous]
    rcases eq_or_ne r p with rfl | hne
    · rw [move_queued_self, Function.update_self, Function.update_self]
      refine ⟨⟨fun hr => ((hlinks q hr).resolve_left hq).1, hmono q⟩, ?_⟩
      intro hr
      exact ((hlinks q (hmono q hr)).resolve_left hq).2
    · rw [move_queued_of_ne _ hne, Function.update_of_ne hne, Function.update_of_ne hne]
      exact ⟨Iff.rfl, fun _ => ⟨rfl, rfl⟩⟩
  have hnodes : ∀ r ≠ p, (w.setNode p node).nodes r = w.nodes r :=
    fun r hne => Function.update_of_ne hne _ _
  refine ⟨⟨?_, ?_, ?_, ?_, h.locked, ?_, ?_⟩, fun q r hr => .inl (hqueued q r (.inl hr)), ?_⟩
  · rw [move_place_of_ne _ hnull.symm, h.null]
  · intro r
    rcases eq_or_ne r p with rfl | hne
    · rw [move_place_self]
      exact ⟨fun hr => absurd hr hx, fun hr => absurd hr hidle⟩
    · rw [move_place_of_ne _ hne, h.idle]
  · intro r
    rcases eq_or_ne r p with rfl | hne
    · rw [move_place_self, move_toScheduler, Scheduler.setNode_nodes]
      exact hnode.mono fun q _ _ _ => hqueued q _
    · rw [move_place_of_ne _ hne, move_toScheduler, hnodes r hne]
      exact (h.node r).mono fun q _ _ _ hs => hqueued q _ (.inl hs)
  · intro q
    exact (h.first q).imp_right fun hq => hqueued q _ (.inl hq)
  · intro q hq
    have hne : w.holder q ≠ some c := by
      rw [show w.holder q = none from hq]
      exact (Option.some_ne_none c).symm
    obtain ⟨l, hmem, hl⟩ := h.linked q hq
    refine ⟨l, fun r => (hmem r).trans (hsame q hne r).1.symm, hl.congr ?_ ?_⟩
    · exact fun r hr => ((hsame q hne r).2 ((hmem r).mp hr)).1
    · exact fun r hr => ((hsame q hne r).2 ((hmem r).mp hr)).2
  · intro c' r hr
    obtain ⟨q, hq⟩ := h.cursor c' r hr
    exact ⟨q, hqueued q r (.inl hq)⟩
  · intro c' hc'
    have hheld : ∀ q, w.holder q = some c' → w.holder q ≠ some c := by
      intro q hq heq
      rw [hq, Option.some.injEq] at heq
      exact hc' heq
    refine ⟨?_, ?_, fun _ => Iff.rfl, fun _ _ => rfl, ?_, ?_, rfl⟩
    · intro r hr
      rcases eq_or_ne r p with rfl | hne
      · rw [move_place_self] at hr ⊢
        rcases howner c' hc' with hno | ⟨rfl, hcontext, -⟩
        · exact absurd hr (not_or.mpr hno)
        · refine ⟨rfl, ?_⟩
          rw [move_toScheduler, Scheduler.setNode_context, Function.update_self,
            hcontext]
      · rw [move_place_of_ne _ hne, move_toScheduler, Scheduler.context,
          hnodes r hne]
        exact ⟨rfl, rfl⟩
    · intro r hr
      rcases eq_or_ne r p with rfl | hne
      · rcases howner c' hc' with ⟨hno, -⟩ | ⟨rfl, -, hpending⟩
        · rw [hr] at hno
          exact absurd rfl hno
        · exact absurd hr hpending
      · exact hnodes r hne
    · exact fun q hq r => (hsame q (hheld q hq) r).1
    · exact fun q hq r => (hsame q (hheld q hq) r).2

theorem Sound.free (h : w.Sound) (hp : w.place p = .queued q (some c)) (hheld : w.holder q = some c)
    (hnext : ∀ r, w.Queued q r → r ≠ p → w.next r ≠ p) (hfirst : (w.queues q).first ≠ p)
    (hcursor : ∀ c', w.cursor c' ≠ some p) : Access c w (w.move (w.free p) p .absent) := by
  have hpq : w.Queued q p := ⟨_, hp⟩
  have hqueued : ∀ q' r, w.Queued q' r → r ≠ p → (w.move (w.free p) p .absent).Queued q' r :=
    fun q' r hr hne => (move_queued_of_ne _ hne).mpr hr
  have hsame : ∀ q' ≠ q, ∀ r, (w.move (w.free p) p .absent).Queued q' r ↔ w.Queued q' r := by
    intro q' hq' r
    rcases eq_or_ne r p with rfl | hne
    · rw [move_queued_self]
      exact ⟨fun hr => absurd hr Place.not_absent_in, fun hr => absurd (hr.unique hpq) hq'⟩
    · exact move_queued_of_ne _ hne
  have hnodes : ∀ r ≠ p, (w.free p).nodes r = w.nodes r :=
    fun r hne => Function.update_of_ne hne _ _
  have hlinks : ∀ r ≠ p, (w.free p).next r = w.next r ∧ (w.free p).previous r = w.previous r := by
    intro r hne
    rw [Scheduler.next, Scheduler.previous, hnodes r hne]
    exact ⟨rfl, rfl⟩
  have hother : ∀ q' r, q' ≠ q → w.Queued q' r → r ≠ p := by
    rintro q' r hq' hr rfl
    exact hq' (hr.unique hpq)
  refine ⟨⟨?_, ?_, ?_, ?_, h.locked, ?_, ?_⟩, ?_, ?_⟩
  · rw [move_place_of_ne _ (h.ne_null hpq).symm, h.null]
  · intro r
    rcases eq_or_ne r p with rfl | hne
    · rw [move_place_self]
      exact ⟨fun hr => absurd hr (by simp), fun hr => absurd hr (h.ne_idle hpq)⟩
    · rw [move_place_of_ne _ hne, h.idle]
  · intro r
    rcases eq_or_ne r p with rfl | hne
    · rw [move_place_self, move_toScheduler, show (w.free r).nodes r = none from
        Function.update_self ..]
      exact .absent
    · rw [move_place_of_ne _ hne, move_toScheduler, hnodes r hne]
      refine (h.node r).mono ?_
      intro q' contents hr hcontents hq'
      refine hqueued q' _ hq' ?_
      rcases eq_or_ne q' q with rfl | hne'
      · rw [← Scheduler.next_of_nodes hcontents]
        exact hnext r hr hne
      · exact hother q' _ hne' hq'
  · intro q'
    refine (h.first q').imp_right ?_
    intro hq'
    refine hqueued q' _ hq' ?_
    rcases eq_or_ne q' q with rfl | hne
    · exact hfirst
    · exact hother q' _ hne hq'
  · intro q' hq'
    have hne : q' ≠ q := by
      rintro rfl
      exact absurd (hheld.symm.trans hq') (Option.some_ne_none c)
    obtain ⟨l, hmem, hl⟩ := h.linked q' hq'
    have hl' : ∀ r ∈ l, r ≠ p := fun r hr => hother q' r hne ((hmem r).mp hr)
    refine ⟨l, fun r => (hmem r).trans (hsame q' hne r).symm, hl.congr ?_ ?_⟩
    · exact fun r hr => (hlinks r (hl' r hr)).1
    · exact fun r hr => (hlinks r (hl' r hr)).2
  · intro c' r hr
    obtain ⟨q', hq'⟩ := h.cursor c' r hr
    refine ⟨q', hqueued q' r hq' ?_⟩
    rintro rfl
    exact hcursor c' hr
  · intro q' r hr
    rcases eq_or_ne r p with rfl | hne
    · exact .inr (Function.update_self ..)
    · exact .inl (hqueued q' r hr hne)
  · intro c' hc'
    have hne : ∀ q', w.holder q' = some c' → q' ≠ q := by
      rintro q' hq' rfl
      rw [hheld, Option.some.injEq] at hq'
      exact hc' hq'.symm
    refine ⟨?_, ?_, fun _ => Iff.rfl, fun _ _ => rfl, ?_, ?_, rfl⟩
    · intro r hr
      rcases eq_or_ne r p with rfl | hrp
      · rw [move_place_self, hp] at hr
        simp only [Place.owner, Option.some.injEq, reduceCtorEq, or_false] at hr
        exact absurd hr.symm hc'
      · rw [move_place_of_ne _ hrp, move_toScheduler, Scheduler.context, hnodes r hrp]
        exact ⟨rfl, rfl⟩
    · intro r hr
      refine hnodes r ?_
      rintro rfl
      rw [hp] at hr
      exact absurd hr (by simp)
    · exact fun q' hq' r => hsame q' (hne q' hq') r
    · exact fun q' hq' r hr => hlinks r (hother q' r (hne q' hq') hr)

theorem Sound.setQueue (h : w.Sound) {queue : SchedulerQueue} {holder : Option C}
    (hq : w.holder q = none ∨ w.holder q = some c) (hholder : holder = none ∨ holder = some c)
    (hfirst : queue.first = .null ∨ w.Queued q queue.first)
    (hlocked : queue.flags.getLsbD schedulerFlagLocked = holder.isSome)
    (hlinked : holder = none →
      ∃ l, (∀ p, p ∈ l ↔ w.Queued q p) ∧ QueueLinks w.next w.previous queue l) :
    Access c w (w.hold (w.setQueue q queue) q holder) := by
  have hself : ((w.hold (w.setQueue q queue) q holder).queues q) = queue := Function.update_self ..
  have hqueues : ∀ q' ≠ q, (w.hold (w.setQueue q queue) q holder).queues q' = w.queues q' :=
    fun q' hne => Function.update_of_ne hne ..
  have hholds : ∀ q' ≠ q, (w.hold (w.setQueue q queue) q holder).holder q' = w.holder q' :=
    fun q' hne => Function.update_of_ne hne ..
  have hholds_self : (w.hold (w.setQueue q queue) q holder).holder q = holder :=
    Function.update_self ..
  refine ⟨⟨h.null, h.idle, h.node, ?_, ?_, ?_, h.cursor⟩, fun _ _ => .inl, ?_⟩
  · intro q'
    rcases eq_or_ne q' q with rfl | hne
    · rw [hself]
      exact hfirst
    · rw [hqueues q' hne]
      exact h.first q'
  · intro q'
    rcases eq_or_ne q' q with rfl | hne
    · rw [hself, hholds_self, hlocked]
    · rw [hqueues q' hne, hholds q' hne, h.locked]
  · intro q' hq'
    rcases eq_or_ne q' q with rfl | hne
    · rw [hself]
      exact hlinked (hholds_self.symm.trans hq')
    · rw [hqueues q' hne]
      exact h.linked q' ((hholds q' hne).symm.trans hq')
  · intro c' hc'
    have hother : ∀ q', w.holder q' = some c' → q' ≠ q := by
      rintro q' hq' rfl
      rw [hq', Option.some.injEq] at hq
      exact hc' (hq.resolve_left (Option.some_ne_none c'))
    refine ⟨fun _ _ => ⟨rfl, rfl⟩, fun _ _ => rfl, ?_, ?_, fun _ _ _ => Iff.rfl,
      fun _ _ _ _ => ⟨rfl, rfl⟩, rfl⟩
    · intro q'
      rcases eq_or_ne q' q with rfl | hne
      · rw [hholds_self]
        refine ⟨fun h' => ?_, fun h' => absurd rfl (hother q' h')⟩
        rw [h', Option.some.injEq] at hholder
        exact absurd (hholder.resolve_left (Option.some_ne_none c')) hc'
      · rw [hholds q' hne]
    · exact fun q' hq' => hqueues q' (hother q' hq')

variable [DecidableEq C]

def pointAt (w : SchedulerWorld C) (c : C) (node : Option NodePtr) : SchedulerWorld C where
  toSharedScheduler := w.toSharedScheduler.point c node
  place := w.place
  holder := w.holder

@[simp] theorem pointAt_cursor_self {node : Option NodePtr} : (w.pointAt c node).cursor c = node :=
  Function.update_self ..

private theorem pointAt_cursor_of_ne {c' : C} {node : Option NodePtr} (hne : c' ≠ c) :
    (w.pointAt c node).cursor c' = w.cursor c' :=
  Function.update_of_ne hne ..

theorem Sound.pointAt (h : w.Sound) {node : Option NodePtr}
    (hnode : ∀ p, node = some p → ∃ q, w.Queued q p) : Access c w (w.pointAt c node) := by
  refine ⟨⟨h.null, h.idle, h.node, h.first, h.locked, h.linked, ?_⟩, fun _ _ => .inl, ?_⟩
  · intro c' p hp
    rcases eq_or_ne c' c with rfl | hne
    · exact hnode p (pointAt_cursor_self.symm.trans hp)
    · exact h.cursor c' p ((pointAt_cursor_of_ne hne).symm.trans hp)
  · intro c' hc'
    exact ⟨fun _ _ => ⟨rfl, rfl⟩, fun _ _ => rfl, fun _ => Iff.rfl, fun _ _ => rfl,
      fun _ _ _ => Iff.rfl, fun _ _ _ _ => ⟨rfl, rfl⟩, pointAt_cursor_of_ne hc'⟩

end Accesses

end SchedulerWorld

end VisualOS.Kernel
