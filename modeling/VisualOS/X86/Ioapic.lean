import Mathlib.Tactic

/-!
# The IOAPIC

`ioapic.c`: the redirection table behind the select and the window register, how `ioapic_init`
and `ioapic_set_from_isrs` fill it, and how a vector is masked.
-/

namespace VisualOS.Kernel

/-- 256 registers, of which one is selected at a time. -/
structure Ioapic where
  select : BitVec 8
  registers : BitVec 8 → BitVec 32

def ioapicGetRegister (regOffset : BitVec 8) (s : Ioapic) : BitVec 32 × Ioapic :=
  let s := { s with select := regOffset }
  (s.registers s.select, s)

def ioapicSetRegister (regOffset : BitVec 8) (value : BitVec 32) (s : Ioapic) : Ioapic :=
  let s := { s with select := regOffset }
  { s with registers := Function.update s.registers s.select value }

/-- `IOAPICRedirectionEntry`, with the widths of its bit fields. -/
structure IoapicRedirectionEntry where
  vector : BitVec 8
  deliveryMode : BitVec 3
  destinationMode : BitVec 1
  deliveryStatus : BitVec 1
  pinPolarity : BitVec 1
  remoteIrr : BitVec 1
  triggerMode : BitVec 1
  mask : BitVec 1
  destination : BitVec 8
  deriving DecidableEq, Repr

inductive IoapicRedirectionEntryMask
  | enable
  | disable
  deriving DecidableEq, Repr

def IoapicRedirectionEntryMask.toBit : IoapicRedirectionEntryMask → BitVec 1
  | enable => 0
  | disable => 1

/-- `IOAPIC_REG_OFFSET_REDIRECTION_TABLE + 2 * index + half`, passed as a `uint8_t`. -/
def redirectionRegister (index half : Nat) : BitVec 8 := BitVec.ofNat 8 (0x10 + 2 * index + half)

namespace IoapicRedirectionEntry

/-- The two words that `ioapic_set_redirection_entry` makes of an entry. -/
def low (e : IoapicRedirectionEntry) : BitVec 32 :=
  (e.vector.zeroExtend 32 <<< 0) ||| (e.deliveryMode.zeroExtend 32 <<< 8) |||
    (e.destinationMode.zeroExtend 32 <<< 11) ||| (e.deliveryStatus.zeroExtend 32 <<< 12) |||
    (e.pinPolarity.zeroExtend 32 <<< 13) ||| (e.remoteIrr.zeroExtend 32 <<< 14) |||
    (e.triggerMode.zeroExtend 32 <<< 15) ||| (e.mask.zeroExtend 32 <<< 16)

def high (e : IoapicRedirectionEntry) : BitVec 32 := e.destination.zeroExtend 32 <<< 24

/-- The entry that `ioapic_get_redirection_entry` reads from two words. -/
def ofWords (low high : BitVec 32) : IoapicRedirectionEntry where
  vector := (low >>> 0).setWidth 8
  deliveryMode := (low >>> 8).setWidth 3
  destinationMode := (low >>> 11).setWidth 1
  deliveryStatus := (low >>> 12).setWidth 1
  pinPolarity := (low >>> 13).setWidth 1
  remoteIrr := (low >>> 14).setWidth 1
  triggerMode := (low >>> 15).setWidth 1
  mask := (low >>> 16).setWidth 1
  destination := (high >>> 24).setWidth 8

end IoapicRedirectionEntry

def ioapicGetRedirectionEntry (index : Nat) (s : Ioapic) : IoapicRedirectionEntry × Ioapic :=
  let (low, s) := ioapicGetRegister (redirectionRegister index 0) s
  let (high, s) := ioapicGetRegister (redirectionRegister index 1) s
  (.ofWords low high, s)

def ioapicSetRedirectionEntry (index : Nat) (entry : IoapicRedirectionEntry) (s : Ioapic) :
    Ioapic :=
  let s := ioapicSetRegister (redirectionRegister index 0) entry.low s
  ioapicSetRegister (redirectionRegister index 1) entry.high s

/-- `SET_BIT` on a 32-bit word. -/
def setBit32 (n : BitVec 32) (bit : Nat) (value : BitVec 32) : BitVec 32 :=
  n ^^^ ((-value ^^^ n) &&& (1#32 <<< bit))

/-- `_ioapic_entry_set_mask`. -/
def ioapicEntrySetMaskAt (index : Nat) (mask : IoapicRedirectionEntryMask) (s : Ioapic) : Ioapic :=
  let (low, s) := ioapicGetRegister (redirectionRegister index 0) s
  ioapicSetRegister (redirectionRegister index 0) (setBit32 low 16 (mask.toBit.zeroExtend 32)) s

/-- `MADTInterruptSourceOverride`. -/
structure InterruptSourceOverride where
  source : BitVec 8
  globalInterrupt : BitVec 32
  flags : BitVec 16
  deriving DecidableEq, Repr

/-- `ISR_IRQ_START` and `ISR_MAX`. -/
def isrIrqStart : Nat := 32

def isrMax : Nat := 256

/-- The entry that `ioapic_init` writes for an override. -/
def overrideEntry (iso : InterruptSourceOverride) : IoapicRedirectionEntry where
  vector := BitVec.ofNat 8 (iso.source.toNat + isrIrqStart)
  deliveryMode := 0b000
  destinationMode := 0
  deliveryStatus := 0
  pinPolarity := if iso.flags &&& 0x03 = 0x03 then 1 else 0
  remoteIrr := 0
  triggerMode := if iso.flags &&& 0x0c = 0x0c then 1 else 0
  mask := IoapicRedirectionEntryMask.enable.toBit
  destination := 0

/-- The result is what is stored in `max_interrupts`. -/
def ioapicInit (isos : List InterruptSourceOverride) (s : Ioapic) : BitVec 8 × Ioapic :=
  let (version, s) := ioapicGetRegister 0x01 s
  let maxInterrupts := (((version >>> 16) &&& 0xff) + 1).setWidth 8
  (maxInterrupts, isos.foldl (fun s iso =>
    ioapicSetRedirectionEntry iso.globalInterrupt.toNat (overrideEntry iso) s) s)

/-- The entry that `ioapic_set_from_isrs` writes for a vector without an override. -/
def isrEntry (isrNum : Nat) : IoapicRedirectionEntry where
  vector := BitVec.ofNat 8 isrNum
  deliveryMode := 0b001
  destinationMode := 0
  deliveryStatus := 0
  pinPolarity := 0
  remoteIrr := 0
  triggerMode := 0
  mask := IoapicRedirectionEntryMask.enable.toBit
  destination := 0

/-- The vector belongs to the source of an override. -/
def Redirected (isos : List InterruptSourceOverride) (isrNum : Nat) : Prop :=
  ∃ iso ∈ isos, iso.source.toNat + isrIrqStart = isrNum

instance (isos : List InterruptSourceOverride) (isrNum : Nat) :
    Decidable (Redirected isos isrNum) := inferInstanceAs (Decidable (∃ iso ∈ isos, _))

/-- One round of the loop of `ioapic_set_from_isrs`. -/
def ioapicSetFromIsr (isos : List InterruptSourceOverride) (isrExists : Nat → Bool) (s : Ioapic)
    (isrNum : Nat) : Ioapic :=
  if !isrExists isrNum then s
  else if Redirected isos isrNum then s
  else ioapicSetRedirectionEntry (isrNum - isrIrqStart) (isrEntry isrNum) s

def ioapicSetFromIsrs (isos : List InterruptSourceOverride) (isrExists : Nat → Bool) (s : Ioapic) :
    Ioapic :=
  (List.range' isrIrqStart (isrMax - isrIrqStart)).foldl (ioapicSetFromIsr isos isrExists) s

/-- The entry in which `ioapic_entry_set_mask` expects a vector. -/
def maskIndex (isos : List InterruptSourceOverride) (isrNum : Nat) : Nat :=
  let source := (isrNum + 2 ^ 64 - isrIrqStart) % 2 ^ 64
  match isos.find? fun iso => iso.source.toNat == source with
  | some iso => iso.globalInterrupt.toNat
  | none => source

def ioapicEntrySetMask (isos : List InterruptSourceOverride) (isrNum : Nat)
    (mask : IoapicRedirectionEntryMask) (s : Ioapic) : Ioapic :=
  ioapicEntrySetMaskAt (maskIndex isos isrNum) mask s

/-! ## Entries as they are read -/

namespace IoapicRedirectionEntry

private theorem field_eq {w offset : Nat} {n : BitVec 32} {x : BitVec w}
    (h : ∀ i < w, n.getLsbD (offset + i) = x.getLsbD i) : (n >>> offset).setWidth w = x := by
  ext i hi
  rw [BitVec.getElem_setWidth, BitVec.getLsbD_ushiftRight, h i hi, BitVec.getLsbD_eq_getElem]

private theorem getLsbD_field {w offset k : Nat} (x : BitVec w) (hk : k < 32) :
    (x.zeroExtend 32 <<< offset).getLsbD k = (decide (offset ≤ k) && x.getLsbD (k - offset)) := by
  show (x.setWidth 32 <<< offset).getLsbD k = _
  rw [BitVec.getLsbD_shiftLeft, BitVec.getLsbD_setWidth, decide_eq_true hk,
    decide_eq_true (show k - offset < 32 by omega), Bool.true_and, Bool.true_and]
  by_cases h : offset ≤ k
  · rw [decide_eq_true h, decide_eq_false (by omega), Bool.not_false]
  · rw [decide_eq_false h, decide_eq_true (by omega), Bool.not_true]

private theorem ofWords_low_high (e : IoapicRedirectionEntry) : ofWords e.low e.high = e := by
  cases e
  rw [ofWords, mk.injEq]
  refine ⟨?_, ?_, ?_, ?_, ?_, ?_, ?_, ?_, ?_⟩
  all_goals
    apply field_eq
    intro i hi
    -- The fields below end before the bit, and those above begin after it.
    simp (disch := omega) only [low, high, BitVec.getLsbD_or, getLsbD_field, BitVec.getLsbD_of_ge,
      decide_eq_true, decide_eq_false, Bool.and_false, Bool.false_and, Bool.true_and, Bool.or_false,
      Bool.false_or, Nat.add_sub_cancel_left, Nat.zero_add, Nat.sub_zero]

private theorem getLsbD_setBit32 (n value : BitVec 32) {bit k : Nat} (hk : k < 32) :
    (setBit32 n bit value).getLsbD k = if k = bit then (-value).getLsbD k else n.getLsbD k := by
  have hone : (1#32 <<< bit).getLsbD k = decide (k = bit) := by
    rw [BitVec.getLsbD_shiftLeft, BitVec.getLsbD_one, decide_eq_true hk, Bool.eq_iff_iff]
    simp
    omega
  rw [setBit32, BitVec.getLsbD_xor, BitVec.getLsbD_and, BitVec.getLsbD_xor, hone]
  by_cases h : k = bit
  · rw [if_pos h, decide_eq_true h]
    cases n.getLsbD k <;> cases (-value).getLsbD k <;> rfl
  · rw [if_neg h, decide_eq_false h, Bool.and_false, Bool.xor_false]

private theorem neg_setWidth_getLsbD (mask : BitVec 1) :
    (-mask.zeroExtend 32).getLsbD 16 = mask.getLsbD 0 := by
  revert mask
  decide

private theorem ofWords_setBit32 (low high : BitVec 32) (mask : BitVec 1) :
    ofWords (setBit32 low 16 (mask.zeroExtend 32)) high = { ofWords low high with mask } := by
  have hother : ∀ {w offset : Nat}, (∀ i < w, offset + i ≠ 16 ∧ offset + i < 32) →
      (setBit32 low 16 (mask.zeroExtend 32) >>> offset).setWidth w = (low >>> offset).setWidth w := by
    intro w offset h
    apply field_eq
    intro i hi
    rw [getLsbD_setBit32 _ _ (h i hi).2, if_neg (h i hi).1, BitVec.getLsbD_setWidth,
      BitVec.getLsbD_ushiftRight, decide_eq_true hi, Bool.true_and]
  have hmask : (setBit32 low 16 (mask.zeroExtend 32) >>> 16).setWidth 1 = mask := by
    apply field_eq
    intro i hi
    obtain rfl : i = 0 := Nat.lt_one_iff.mp hi
    rw [getLsbD_setBit32 _ _ (by decide), if_pos rfl]
    exact neg_setWidth_getLsbD mask
  rw [ofWords, ofWords, mk.injEq]
  refine ⟨?_, ?_, ?_, ?_, ?_, ?_, ?_, hmask, rfl⟩
  all_goals
    apply hother
    intro i hi
    omega

end IoapicRedirectionEntry

/-- The entry that is read at an index. -/
def Ioapic.entry (s : Ioapic) (index : Nat) : IoapicRedirectionEntry :=
  (ioapicGetRedirectionEntry index s).1

private theorem Ioapic.entry_eq (s : Ioapic) (index : Nat) :
    s.entry index = .ofWords (s.registers (redirectionRegister index 0))
      (s.registers (redirectionRegister index 1)) := rfl

private theorem redirectionRegister_inj {i j a b : Nat} (hi : i < 120) (hj : j < 120) (ha : a < 2)
    (hb : b < 2) : redirectionRegister i a = redirectionRegister j b ↔ i = j ∧ a = b := by
  constructor
  · intro h
    have := congrArg BitVec.toNat h
    simp only [redirectionRegister, BitVec.toNat_ofNat] at this
    omega
  · rintro ⟨rfl, rfl⟩
    rfl

section Entries

variable {s : Ioapic} {i j : Nat}

private theorem entry_ioapicSetRedirectionEntry (e : IoapicRedirectionEntry) (hi : i < 120)
    (hj : j < 120) :
    (ioapicSetRedirectionEntry i e s).entry j = if j = i then e else s.entry j := by
  have hwords : ∀ half < 2, (ioapicSetRedirectionEntry i e s).registers (redirectionRegister j half) =
      if j = i then (if half = 0 then e.low else e.high)
      else s.registers (redirectionRegister j half) := by
    intro half hhalf
    simp only [ioapicSetRedirectionEntry, ioapicSetRegister, Function.update_apply,
      redirectionRegister_inj hj hi hhalf (by decide : 0 < 2),
      redirectionRegister_inj hj hi hhalf (by decide : 1 < 2)]
    by_cases hji : j = i <;> interval_cases half <;> simp [hji]
  rw [Ioapic.entry_eq, hwords 0 (by decide), hwords 1 (by decide)]
  by_cases hji : j = i
  · simp only [hji, if_true]
    exact e.ofWords_low_high
  · simp only [hji, if_false]
    rfl

private theorem entry_ioapicEntrySetMaskAt (mask : IoapicRedirectionEntryMask) (hi : i < 120)
    (hj : j < 120) :
    (ioapicEntrySetMaskAt i mask s).entry j =
      if j = i then { s.entry i with mask := mask.toBit } else s.entry j := by
  have hlow : (ioapicEntrySetMaskAt i mask s).registers (redirectionRegister j 0) =
      if j = i then setBit32 (s.registers (redirectionRegister i 0)) 16 (mask.toBit.zeroExtend 32)
      else s.registers (redirectionRegister j 0) := by
    simp only [ioapicEntrySetMaskAt, ioapicSetRegister, ioapicGetRegister, Function.update_apply,
      redirectionRegister_inj hj hi (by decide : 0 < 2) (by decide : 0 < 2), and_true]
  have hhigh : (ioapicEntrySetMaskAt i mask s).registers (redirectionRegister j 1) =
      s.registers (redirectionRegister j 1) := by
    simp [ioapicEntrySetMaskAt, ioapicSetRegister, ioapicGetRegister,
      redirectionRegister_inj hj hi (by decide : 1 < 2) (by decide : 0 < 2)]
  rw [Ioapic.entry_eq, hlow, hhigh]
  by_cases hji : j = i
  · subst j
    rw [if_pos rfl, if_pos rfl]
    exact IoapicRedirectionEntry.ofWords_setBit32 _ _ _
  · rw [if_neg hji, if_neg hji]
    rfl

/-- An entry is read as it was written and masked, and the others as they were before. -/
theorem redirection_entry_round_trip (e : IoapicRedirectionEntry)
    (mask : IoapicRedirectionEntryMask) (s : Ioapic) (hi : i < 120) (hj : j < 120) :
    (ioapicGetRedirectionEntry i (ioapicSetRedirectionEntry i e s)).1 = e ∧
      (j ≠ i → (ioapicGetRedirectionEntry j (ioapicSetRedirectionEntry i e s)).1 =
        (ioapicGetRedirectionEntry j s).1) ∧
      (ioapicGetRedirectionEntry i
        (ioapicEntrySetMaskAt i mask (ioapicSetRedirectionEntry i e s))).1 =
          { e with mask := mask.toBit } ∧
      (j ≠ i → (ioapicGetRedirectionEntry j
        (ioapicEntrySetMaskAt i mask (ioapicSetRedirectionEntry i e s))).1 =
          (ioapicGetRedirectionEntry j s).1) := by
  have hset : (ioapicSetRedirectionEntry i e s).entry i = e := by
    rw [entry_ioapicSetRedirectionEntry e hi hi, if_pos rfl]
  have hother : j ≠ i → (ioapicSetRedirectionEntry i e s).entry j = s.entry j := by
    intro hne
    rw [entry_ioapicSetRedirectionEntry e hi hj, if_neg hne]
  refine ⟨hset, hother, ?_, ?_⟩
  · have hmask := entry_ioapicEntrySetMaskAt mask hi hi (s := ioapicSetRedirectionEntry i e s)
    rw [if_pos rfl, hset] at hmask
    exact hmask
  · intro hne
    have hmask := entry_ioapicEntrySetMaskAt mask hi hj (s := ioapicSetRedirectionEntry i e s)
    rw [if_neg hne, hother hne] at hmask
    exact hmask

end Entries

theorem redirection_entry_round_trip_two :
    (ioapicGetRedirectionEntry 2 (ioapicSetRedirectionEntry 2 (isrEntry 34) ⟨0, fun _ => 0⟩)).1 =
        isrEntry 34 ∧
      (ioapicGetRedirectionEntry 2 (ioapicEntrySetMaskAt 2 .disable
        (ioapicSetRedirectionEntry 2 (isrEntry 34) ⟨0, fun _ => 0⟩))).1 =
          { isrEntry 34 with mask := 1 } := by
  obtain ⟨hset, -, hmask, -⟩ := redirection_entry_round_trip (isrEntry 34) .disable
    ⟨0, fun _ => 0⟩ (by decide : 2 < 120) (by decide : 119 < 120)
  exact ⟨hset, hmask⟩

/-! ## The table after both passes -/

section Passes

variable {isos : List InterruptSourceOverride} {isrExists : Nat → Bool} {s : Ioapic} {i : Nat}

private theorem entry_overrides
    (hdistinct : isos.Pairwise fun a b => a.globalInterrupt ≠ b.globalInterrupt)
    (hlt : ∀ iso ∈ isos, iso.globalInterrupt.toNat < 24) (hi : i < 24) :
    (isos.foldl (fun s iso =>
      ioapicSetRedirectionEntry iso.globalInterrupt.toNat (overrideEntry iso) s) s).entry i =
      match isos.find? fun iso => iso.globalInterrupt.toNat == i with
      | some iso => overrideEntry iso
      | none => s.entry i := by
  induction isos generalizing s with
  | nil => rfl
  | cons iso isos ih =>
      rw [List.pairwise_cons] at hdistinct
      have hiso := hlt iso List.mem_cons_self
      rw [List.foldl_cons, ih hdistinct.2 fun a ha => hlt a (List.mem_cons_of_mem _ ha)]
      by_cases heq : iso.globalInterrupt.toNat = i
      · have hnone : isos.find? (fun iso => iso.globalInterrupt.toNat == i) = none := by
          rw [List.find?_eq_none]
          intro a ha
          have := hdistinct.1 a ha
          rw [beq_iff_eq, ← heq]
          exact fun h => this (BitVec.eq_of_toNat_eq h.symm)
        rw [hnone, List.find?_cons_of_pos (by simpa using heq)]
        dsimp only
        rw [entry_ioapicSetRedirectionEntry _ (by omega) (by omega), if_pos heq.symm]
      · rw [List.find?_cons_of_neg (by simpa using heq)]
        cases isos.find? (fun iso => iso.globalInterrupt.toNat == i) with
        | some iso' => rfl
        | none =>
            dsimp only
            rw [entry_ioapicSetRedirectionEntry _ (by omega) (by omega), if_neg (Ne.symm heq)]

private theorem entry_ioapicInit
    (hdistinct : isos.Pairwise fun a b => a.globalInterrupt ≠ b.globalInterrupt)
    (hlt : ∀ iso ∈ isos, iso.globalInterrupt.toNat < 24) (hi : i < 24) :
    (ioapicInit isos s).2.entry i =
      match isos.find? fun iso => iso.globalInterrupt.toNat == i with
      | some iso => overrideEntry iso
      | none => s.entry i :=
  entry_overrides hdistinct hlt hi

private theorem entry_isrs {nums : List Nat} (hnodup : nums.Nodup) (hstart : ∀ n ∈ nums, 32 ≤ n)
    (hisr : ∀ n ∈ nums, isrExists n = true → n < 56) (hi : i < 24) :
    (nums.foldl (ioapicSetFromIsr isos isrExists) s).entry i =
      if i + 32 ∈ nums ∧ isrExists (i + 32) = true ∧ ¬Redirected isos (i + 32) then
        isrEntry (i + 32)
      else s.entry i := by
  induction nums generalizing s with
  | nil => simp
  | cons n nums ih =>
      rw [List.nodup_cons] at hnodup
      have hn := hstart n List.mem_cons_self
      have hstep : (ioapicSetFromIsr isos isrExists s n).entry i =
          if n = i + 32 ∧ isrExists (i + 32) = true ∧ ¬Redirected isos (i + 32) then
            isrEntry (i + 32)
          else s.entry i := by
        rw [ioapicSetFromIsr]
        by_cases hexists : isrExists n = true
        · have hlt := hisr n List.mem_cons_self hexists
          by_cases hredirected : Redirected isos n
          · rw [if_neg (by simp [hexists]), if_pos hredirected, if_neg]
            rintro ⟨rfl, -, hnot⟩
            exact hnot hredirected
          · rw [if_neg (by simp [hexists]), if_neg hredirected, isrIrqStart,
              entry_ioapicSetRedirectionEntry _ (by omega) (by omega)]
            by_cases heq : n = i + 32
            · subst n
              rw [if_pos (by omega), if_pos ⟨rfl, hexists, hredirected⟩]
            · rw [if_neg (by omega), if_neg (fun h => heq h.1)]
        · rw [if_pos (by simp [hexists]), if_neg]
          rintro ⟨rfl, hexists', -⟩
          exact hexists hexists'
      rw [List.foldl_cons, ih hnodup.2 (fun a ha => hstart a (List.mem_cons_of_mem _ ha))
        (fun a ha => hisr a (List.mem_cons_of_mem _ ha)), hstep]
      by_cases heq : n = i + 32
      · subst n
        rw [if_neg (fun h => hnodup.1 h.1)]
        simp
      · have hmem : i + 32 ∈ n :: nums ↔ i + 32 ∈ nums := by
          rw [List.mem_cons, or_iff_right (fun h => heq h.symm)]
        rw [if_neg (c := n = i + 32 ∧ _) (fun h => heq h.1)]
        simp only [hmem]

private theorem entry_ioapicSetFromIsrs (hisr : ∀ n, isrExists n = true → n < 56) (hi : i < 24) :
    (ioapicSetFromIsrs isos isrExists s).entry i =
      if isrExists (i + 32) = true ∧ ¬Redirected isos (i + 32) then isrEntry (i + 32)
      else s.entry i := by
  have hmem : i + 32 ∈ List.range' isrIrqStart (isrMax - isrIrqStart) := by
    simp only [isrIrqStart, isrMax, List.mem_range'_1]
    omega
  rw [ioapicSetFromIsrs, entry_isrs (List.nodup_range' ..) ?_ (fun n _ => hisr n) hi]
  · simp only [hmem, true_and]
  · intro n hn
    exact (List.mem_range'_1.mp hn).1

/-- Both passes, one after the other. -/
def ioapicRoute (isos : List InterruptSourceOverride) (isrExists : Nat → Bool) (s : Ioapic) :
    Ioapic :=
  ioapicSetFromIsrs isos isrExists (ioapicInit isos s).2

/-- The overrides and handlers that are looked at: the tables have 24 entries, and nothing is
named twice. -/
structure RoutingInput (isos : List InterruptSourceOverride) (isrExists : Nat → Bool) : Prop where
  sources : isos.Pairwise fun a b => a.source ≠ b.source
  globals : isos.Pairwise fun a b => a.globalInterrupt ≠ b.globalInterrupt
  global_lt : ∀ iso ∈ isos, iso.globalInterrupt.toNat < 24
  isr_lt : ∀ n, isrExists n = true → n < 56

/-- Neither pass writes the entry. -/
def Untouched (isos : List InterruptSourceOverride) (isrExists : Nat → Bool) (i : Nat) : Prop :=
  (∀ iso ∈ isos, iso.globalInterrupt.toNat ≠ i) ∧
    (isrExists (i + 32) = true → Redirected isos (i + 32))

/-- Interrupts go where the tables say, and masking a vector masks all of it and nothing else. -/
structure Routed (isos : List InterruptSourceOverride) (isrExists : Nat → Bool) (s : Ioapic) :
    Prop where
  override : ∀ iso ∈ isos,
    (s.entry iso.globalInterrupt.toNat).vector.toNat = iso.source.toNat + 32
  identity : ∀ v, 32 ≤ v → isrExists v = true → ¬Redirected isos v →
    (s.entry (v - 32)).vector.toNat = v
  masked : ∀ v, 32 ≤ v → isrExists v = true → ∀ i < 24,
    ((ioapicEntrySetMask isos v .disable s).entry i).vector.toNat = v →
      ((ioapicEntrySetMask isos v .disable s).entry i).mask = 1
  others : ∀ v, 32 ≤ v → isrExists v = true → ∀ i < 24, (s.entry i).vector.toNat ≠ v →
    (ioapicEntrySetMask isos v .disable s).entry i = s.entry i

/-- The vectors of the overrides fit into eight bits, no vector without an override is written over
an override, and no entry that is left alone was unmasked with a vector in use. -/
structure RoutingCondition (isos : List InterruptSourceOverride) (isrExists : Nat → Bool)
    (s : Ioapic) : Prop where
  source_lt : ∀ iso ∈ isos, iso.source.toNat < 224
  apart : ∀ iso ∈ isos, ∀ v, 32 ≤ v → isrExists v = true → ¬Redirected isos v →
    v - 32 ≠ iso.globalInterrupt.toNat
  quiet : ∀ i < 24, Untouched isos isrExists i → 32 ≤ (s.entry i).vector.toNat →
    isrExists (s.entry i).vector.toNat = true → (s.entry i).mask = 1

theorem overrideEntry_vector (iso : InterruptSourceOverride) :
    (overrideEntry iso).vector.toNat = (iso.source.toNat + 32) % 256 := by
  simp [overrideEntry, isrIrqStart]

theorem isrEntry_vector {n : Nat} (hn : n < 256) : (isrEntry n).vector.toNat = n := by
  simp [isrEntry, Nat.mod_eq_of_lt hn]

private theorem maskIndex_cases (isos : List InterruptSourceOverride) {v : Nat} (hv : 32 ≤ v)
    (hlt : v < 56) :
    (∃ iso ∈ isos, iso.source.toNat + 32 = v ∧ maskIndex isos v = iso.globalInterrupt.toNat) ∨
      ¬Redirected isos v ∧ maskIndex isos v = v - 32 := by
  have hsource : (v + 2 ^ 64 - isrIrqStart) % 2 ^ 64 = v - 32 := by
    simp only [isrIrqStart]
    omega
  rw [maskIndex, hsource]
  cases hfind : isos.find? fun iso => iso.source.toNat == v - 32 with
  | some iso =>
      have hiso := List.find?_some hfind
      rw [beq_iff_eq] at hiso
      exact .inl ⟨iso, List.mem_of_find?_eq_some hfind, by omega, rfl⟩
  | none =>
      refine .inr ⟨?_, rfl⟩
      rintro ⟨iso, hmem, heq⟩
      have := List.find?_eq_none.mp hfind iso hmem
      rw [beq_iff_eq] at this
      simp only [isrIrqStart] at heq
      omega

namespace RoutingInput

private theorem source_unique (h : RoutingInput isos isrExists) {a b : InterruptSourceOverride}
    (ha : a ∈ isos) (hb : b ∈ isos) (heq : a.source.toNat = b.source.toNat) : a = b := by
  exact List.inj_on_of_nodup_map (List.pairwise_map.mpr h.sources) ha hb
    (BitVec.eq_of_toNat_eq heq)

theorem global_unique (h : RoutingInput isos isrExists) {a b : InterruptSourceOverride}
    (ha : a ∈ isos) (hb : b ∈ isos)
    (heq : a.globalInterrupt.toNat = b.globalInterrupt.toNat) : a = b := by
  exact List.inj_on_of_nodup_map (List.pairwise_map.mpr h.globals) ha hb
    (BitVec.eq_of_toNat_eq heq)

/-- What an entry of the table is after both passes. -/
theorem entry_cases (h : RoutingInput isos isrExists) (s : Ioapic) (hi : i < 24) :
    (isrExists (i + 32) = true ∧ ¬Redirected isos (i + 32) ∧
        (ioapicRoute isos isrExists s).entry i = isrEntry (i + 32)) ∨
      (∃ iso ∈ isos, iso.globalInterrupt.toNat = i ∧
        (isrExists (i + 32) = true → Redirected isos (i + 32)) ∧
        (ioapicRoute isos isrExists s).entry i = overrideEntry iso) ∨
      Untouched isos isrExists i ∧ (ioapicRoute isos isrExists s).entry i = s.entry i := by
  rw [ioapicRoute, entry_ioapicSetFromIsrs h.isr_lt hi]
  by_cases hisr : isrExists (i + 32) = true ∧ ¬Redirected isos (i + 32)
  · exact .inl ⟨hisr.1, hisr.2, if_pos hisr⟩
  · have hredirected : isrExists (i + 32) = true → Redirected isos (i + 32) := by
      intro hexists
      by_contra hnot
      exact hisr ⟨hexists, hnot⟩
    rw [if_neg hisr, entry_ioapicInit h.globals h.global_lt hi]
    cases hfind : isos.find? fun iso => iso.globalInterrupt.toNat == i with
    | some iso =>
        have hiso := List.find?_some hfind
        rw [beq_iff_eq] at hiso
        exact .inr (.inl ⟨iso, List.mem_of_find?_eq_some hfind, hiso, hredirected, rfl⟩)
    | none =>
        refine .inr (.inr ⟨⟨?_, hredirected⟩, rfl⟩)
        intro iso hmem
        simpa using List.find?_eq_none.mp hfind iso hmem

private theorem identity (h : RoutingInput isos isrExists) (s : Ioapic) {v : Nat} (hv : 32 ≤ v)
    (hexists : isrExists v = true) (hnot : ¬Redirected isos v) :
    ((ioapicRoute isos isrExists s).entry (v - 32)).vector.toNat = v := by
  have hlt := h.isr_lt v hexists
  rw [ioapicRoute, entry_ioapicSetFromIsrs h.isr_lt (by omega), Nat.sub_add_cancel hv,
    if_pos ⟨hexists, hnot⟩, isrEntry_vector (by omega)]

private theorem maskIndex_lt (h : RoutingInput isos isrExists) {v : Nat} (hv : 32 ≤ v)
    (hlt : v < 56) : maskIndex isos v < 24 := by
  rcases maskIndex_cases isos hv hlt with ⟨iso, hmem, -, heq⟩ | ⟨-, heq⟩
  · rw [heq]
    exact h.global_lt iso hmem
  · omega

private theorem entry_mask (h : RoutingInput isos isrExists) (s : Ioapic) {v : Nat} (hv : 32 ≤ v)
    (hexists : isrExists v = true) (hi : i < 24) :
    (ioapicEntrySetMask isos v .disable s).entry i =
      if i = maskIndex isos v then { s.entry (maskIndex isos v) with mask := 1 }
      else s.entry i := by
  have hindex := h.maskIndex_lt hv (h.isr_lt v hexists)
  exact entry_ioapicEntrySetMaskAt .disable (by omega) (by omega)

end RoutingInput

private theorem RoutingCondition.override (hinput : RoutingInput isos isrExists)
    (h : RoutingCondition isos isrExists s) {iso : InterruptSourceOverride} (hmem : iso ∈ isos) :
    ((ioapicRoute isos isrExists s).entry iso.globalInterrupt.toNat).vector.toNat =
      iso.source.toNat + 32 := by
  rcases hinput.entry_cases s (hinput.global_lt iso hmem) with
    ⟨hexists, hnot, -⟩ | ⟨iso', hmem', hglobal, -, hentry⟩ | ⟨huntouched, -⟩
  · exact absurd (Nat.add_sub_cancel ..) (h.apart iso hmem _ (by omega) hexists hnot)
  · have hlt := h.source_lt iso hmem
    rw [hentry, hinput.global_unique hmem' hmem hglobal, overrideEntry_vector,
      Nat.mod_eq_of_lt (by omega)]
  · exact absurd rfl (huntouched.1 iso hmem)

private theorem RoutingCondition.maskIndex_vector (hinput : RoutingInput isos isrExists)
    (h : RoutingCondition isos isrExists s) {v : Nat} (hv : 32 ≤ v) (hexists : isrExists v = true) :
    ((ioapicRoute isos isrExists s).entry (maskIndex isos v)).vector.toNat = v := by
  rcases maskIndex_cases isos hv (hinput.isr_lt v hexists) with
    ⟨iso, hmem, hsource, heq⟩ | ⟨hnot, heq⟩
  · rw [heq, h.override hinput hmem, hsource]
  · rw [heq, hinput.identity s hv hexists hnot]

/-- Under the condition a vector in use stands in no other entry that is unmasked. -/
theorem RoutingCondition.elsewhere (hinput : RoutingInput isos isrExists)
    (h : RoutingCondition isos isrExists s) {v : Nat} (hv : 32 ≤ v) (hexists : isrExists v = true)
    (hi : i < 24) (hne : i ≠ maskIndex isos v)
    (hvector : ((ioapicRoute isos isrExists s).entry i).vector.toNat = v) :
    ((ioapicRoute isos isrExists s).entry i).mask = 1 := by
  have hlt := hinput.isr_lt v hexists
  have hindex := maskIndex_cases isos hv hlt
  rcases hinput.entry_cases s hi with
    ⟨hexists', hnot, hentry⟩ | ⟨iso, hmem, hglobal, -, hentry⟩ | ⟨huntouched, hentry⟩
  · rw [hentry, isrEntry_vector (by omega)] at hvector
    subst v
    rcases hindex with ⟨iso, hmem, hsource, -⟩ | ⟨-, heq⟩
    · exact absurd ⟨iso, hmem, hsource⟩ hnot
    · omega
  · have hsource := h.source_lt iso hmem
    rw [hentry, overrideEntry_vector, Nat.mod_eq_of_lt (by omega)] at hvector
    rcases hindex with ⟨iso', hmem', hsource', heq⟩ | ⟨hnot, -⟩
    · have hsame := hinput.source_unique hmem' hmem (by omega)
      rw [heq, hsame, hglobal] at hne
      exact absurd rfl hne
    · exact absurd ⟨iso, hmem, hvector⟩ hnot
  · rw [hentry] at hvector ⊢
    exact h.quiet i hi huntouched (hvector ▸ hv) (hvector ▸ hexists)

theorem interrupt_routing_iff (hinput : RoutingInput isos isrExists) :
    Routed isos isrExists (ioapicRoute isos isrExists s) ↔ RoutingCondition isos isrExists s := by
  constructor
  · intro h
    apply RoutingCondition.mk
    · intro iso hmem
      have hvector := h.override iso hmem
      have := ((ioapicRoute isos isrExists s).entry iso.globalInterrupt.toNat).vector.isLt
      omega
    · intro iso hmem v hv hexists hnot heq
      have hvector := h.override iso hmem
      rw [← heq, hinput.identity s hv hexists hnot] at hvector
      exact hnot ⟨iso, hmem, hvector.symm⟩
    · intro i hi huntouched hv hexists
      have hentry : (ioapicRoute isos isrExists s).entry i = s.entry i := by
        rcases hinput.entry_cases s hi with
          ⟨hexists', hnot, -⟩ | ⟨iso, hmem, hglobal, -⟩ | ⟨-, hentry⟩
        · exact absurd (huntouched.2 hexists') hnot
        · exact absurd hglobal (huntouched.1 iso hmem)
        · exact hentry
      have hne : i ≠ maskIndex isos (s.entry i).vector.toNat := by
        rintro heq
        rcases maskIndex_cases isos hv (hinput.isr_lt _ hexists) with
          ⟨iso, hmem, -, hindex⟩ | ⟨hnot, hindex⟩
        · exact huntouched.1 iso hmem (by omega)
        · have hplace : i + 32 = (s.entry i).vector.toNat := by omega
          exact hnot (hplace ▸ huntouched.2 (hplace ▸ hexists))
      have hmasked := h.masked _ hv hexists i hi
      rw [hinput.entry_mask _ hv hexists hi, if_neg hne, hentry] at hmasked
      exact hmasked rfl
  · intro h
    apply Routed.mk
    · exact fun iso hmem => h.override hinput hmem
    · exact fun v hv hexists hnot => hinput.identity s hv hexists hnot
    · intro v hv hexists i hi hvector
      rw [hinput.entry_mask _ hv hexists hi] at hvector ⊢
      by_cases heq : i = maskIndex isos v
      · rw [if_pos heq]
      · rw [if_neg heq] at hvector ⊢
        exact h.elsewhere hinput hv hexists hi heq hvector
    · intro v hv hexists i hi hvector
      rw [hinput.entry_mask _ hv hexists hi, if_neg]
      rintro rfl
      exact hvector (h.maskIndex_vector hinput hv hexists)

end Passes

/-- The usual override: the timer's source 0 comes in at global interrupt 2. -/
def timerOverride : InterruptSourceOverride := ⟨0, 2, 0⟩

/-- All entries masked, as after a reset. -/
def resetIoapic : Ioapic := ⟨0, fun _ => 0x10000⟩

/-- Handlers for the timer and for source 2. -/
def timerIsrs (isrNum : Nat) : Bool := isrNum == 32 || isrNum == 34

private theorem timerOverride_input : RoutingInput [timerOverride] timerIsrs := by
  refine ⟨by simp, by simp, by simp [timerOverride], ?_⟩
  intro n hn
  simp [timerIsrs] at hn
  omega

/-- With a handler for the timer alone its override is kept. -/
theorem interrupt_routing_iff_timer :
    RoutingInput [timerOverride] (· == 32) ∧
      Routed [timerOverride] (· == 32) (ioapicRoute [timerOverride] (· == 32) resetIoapic) := by
  have hinput : RoutingInput [timerOverride] (· == 32) := by
    refine ⟨by simp, by simp, by simp [timerOverride], ?_⟩
    intro n hn
    rw [beq_iff_eq] at hn
    omega
  refine ⟨hinput, (interrupt_routing_iff hinput).mpr ⟨?_, ?_, ?_⟩⟩
  · decide
  · intro iso hiso v hv hexists hredirected
    rw [beq_iff_eq] at hexists
    subst hexists
    exact absurd ⟨timerOverride, List.mem_cons_self, rfl⟩ hredirected
  · intro i hi _ hvector
    have hzero : ∀ i < 24, (resetIoapic.entry i).vector.toNat = 0 := by decide
    rw [hzero i hi] at hvector
    exact absurd hvector (by decide)

/-- Vector 34, whose source has no override, takes the timer's entry. -/
theorem interrupt_routing_overwritten :
    RoutingInput [timerOverride] timerIsrs ∧
      ((ioapicRoute [timerOverride] timerIsrs resetIoapic).entry 2).vector.toNat = 34 ∧
      ¬Routed [timerOverride] timerIsrs (ioapicRoute [timerOverride] timerIsrs resetIoapic) := by
  have hvector := timerOverride_input.identity resetIoapic (v := 34) (by decide) rfl (by decide)
  refine ⟨timerOverride_input, hvector, ?_⟩
  intro h
  have hoverride := h.override timerOverride List.mem_cons_self
  rw [show timerOverride.globalInterrupt.toNat = 34 - 32 from rfl, hvector] at hoverride
  exact absurd hoverride (by decide)

end VisualOS.Kernel
