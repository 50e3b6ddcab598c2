import Mathlib.Tactic
import VisualOS.X86.InterruptStubs

/-!
# Interrupts from the IOAPIC's lines to the end of interrupt

The lines that are unmasked after `ioapic_init` and `ioapic_set_from_isrs`, with the handlers that
`isr_init` registers.  The local APIC keeps an interrupt in service until it is told that it is over,
and in the meantime holds back every interrupt of the same or a lower priority class; the entry points
of `isr.asm` tell it so only if there is a handler.
-/

namespace VisualOS.Kernel

open Framework

/-! ## The local APIC -/

/-- An interrupt is delivered if its class is above all that are in service. -/
def accepts (inService : Finset Nat) (vector : Nat) : Prop :=
  ∀ v ∈ inService, v / 16 < vector / 16

/-- A write to the EOI register ends the highest interrupt in service. -/
def endOfInterrupt (inService : Finset Nat) : Finset Nat :=
  if h : inService.Nonempty then inService.erase (inService.max' h) else inService

def acknowledge (events : List IsrEvent) (inService : Finset Nat) : Finset Nat :=
  events.foldl (fun s e => match e with
    | .eoi => endOfInterrupt s
    | .handler _ _ => s) inService

/-- One interrupt from its delivery to the `iretq`.  `timer_handler` calls `local_apic_eoi` on its
only way out. -/
inductive ServiceStep (env : IsrEnvironment) : Finset Nat → Nat → Finset Nat → Prop
  | irq {s : Finset Nat} {v : Nat} {stack : BitVec 64} {c : Core} {events : List IsrEvent} {t : Cpu} :
      (v, .irq) ∈ isrStubs → accepts s v →
      IsrStub.irq.run env v (interruptEnter stack v 0 c) = some (events, t) →
      ServiceStep env s v (acknowledge events (insert v s))
  | timer {s : Finset Nat} : accepts s 48 → ServiceStep env s 48 (endOfInterrupt (insert 48 s))

section Service

variable {env : IsrEnvironment} {s s' : Finset Nat} {v : Nat}

private theorem endOfInterrupt_insert (h : accepts s v) : endOfInterrupt (insert v s) = s := by
  have hbelow : ∀ u ∈ s, u < v := by
    intro u hu
    have := h u hu
    by_contra hle
    exact absurd (Nat.div_le_div_right (c := 16) (Nat.le_of_not_lt hle)) (by omega)
  have hnew : v ∉ s := fun hv => absurd (hbelow v hv) (by omega)
  have hmax : (insert v s).max' (Finset.insert_nonempty v s) = v := by
    apply le_antisymm
    · apply Finset.max'_le
      intro u hu
      rcases Finset.mem_insert.mp hu with rfl | hu
      · exact le_rfl
      · exact (hbelow u hu).le
    · exact Finset.le_max' _ v (Finset.mem_insert_self v s)
  rw [endOfInterrupt, dif_pos (Finset.insert_nonempty v s), hmax, Finset.erase_insert hnew]

private theorem isrDefineIrq_events {c t : Cpu} {events : List IsrEvent}
    (h : isrDefineIrq env v c = some (events, t)) :
    if env.handlers v = 0 then events = []
    else ∃ u, events = [.handler (env.handlers v) u, .eoi] := by
  rw [isrDefineIrq, Cpu.set_same] at h
  by_cases hnull : env.handlers v = 0
  · rw [if_pos hnull] at h ⊢
    exact (Prod.mk.inj (Option.some.inj h)).1.symm
  · rw [if_neg hnull] at h ⊢
    simp only [isrCall, Option.bind_eq_bind, Option.bind_eq_some_iff, Option.pure_def,
      Option.some.injEq, Prod.mk.injEq, Prod.exists] at h
    obtain ⟨_, _, ⟨_, -, rfl, rfl⟩, _, -, _, _, ⟨rfl, rfl⟩, rfl, rfl⟩ := h
    simp [Cpu.set]

private theorem ServiceStep.inv (h : ServiceStep env s v s') :
    accepts s v ∧ (v = 48 ∨ (v, .irq) ∈ isrStubs) ∧
      s' = if v ≠ 48 ∧ env.handlers v = 0 then insert v s else s := by
  cases h with
  | irq hstub haccepts hrun =>
      have hne : v ≠ 48 := by
        rintro rfl
        exact absurd hstub (by decide)
      have hevents := isrDefineIrq_events hrun
      refine ⟨haccepts, .inr hstub, ?_⟩
      by_cases hnull : env.handlers v = 0
      · rw [if_pos hnull] at hevents
        rw [if_pos ⟨hne, hnull⟩, hevents]
        rfl
      · rw [if_neg hnull] at hevents
        obtain ⟨u, rfl⟩ := hevents
        rw [if_neg (fun h => hnull h.2)]
        exact endOfInterrupt_insert haccepts
  | timer haccepts =>
      refine ⟨haccepts, .inl rfl, ?_⟩
      rw [if_neg (fun h => h.1 rfl), endOfInterrupt_insert haccepts]

private theorem ServiceStep.subset (h : ServiceStep env s v s') : s ⊆ s' := by
  rw [h.inv.2.2]
  split
  · exact Finset.subset_insert v s
  · exact subset_rfl

end Service

/-! ## The lines after boot -/

section Lines

variable {isos : List InterruptSourceOverride} {link : IsrHandler → BitVec 64} {ioapic : Ioapic}
  {v i : Nat}

end Lines

section Boot

variable {env : IsrEnvironment} {link : IsrHandler → BitVec 64} {v : Nat}

end Boot

end VisualOS.Kernel
