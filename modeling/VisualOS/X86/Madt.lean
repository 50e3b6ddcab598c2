import VisualOS.Memory.BootMap
import VisualOS.X86.Acpi

/-!
# The tables of the firmware

`madt_init` over the bytes of the table, and the copying loop of `stivale2_get_memorymap`.  Both
store into arrays of a fixed size; a store beyond the end of one is an outcome of its own.
-/

namespace VisualOS.Kernel

/-- The arrays of `MADTInformation` that records are stored in. -/
inductive MadtArray
  | processors
  | ioapics
  | isos
  | nmis
  deriving DecidableEq, Repr

namespace MadtArray

/-- `MADT_MAX_PROCESSORS` and its likes. -/
def capacity : MadtArray → Nat
  | processors => 128
  | ioapics => 8
  | isos => 16
  | nmis => 8

/-- The `MADTType` of the records. -/
def type : MadtArray → BitVec 8
  | processors => 0
  | ioapics => 1
  | isos => 2
  | nmis => 4

private theorem type_injective {a b : MadtArray} (h : a.type = b.type) : a = b := by
  cases a <;> cases b <;> first | rfl | exact absurd h (by decide)

end MadtArray

/-- What `madt_init` does to the memory management on its way. -/
inductive MadtCall
  | reserveSize (size : BitVec 32)
  | reserve (ptr : BitVec 64)
  | identityMap (ptr : BitVec 64)
  | setWritable (ptr : BitVec 64)
  deriving DecidableEq, Repr

/-- The three calls, for one page each, that make the registers of a device accessible. -/
def mapDevice (ptr : BitVec 64) : List MadtCall := [.reserve ptr, .identityMap ptr, .setWritable ptr]

/-- The variables of `madt_init`.  A pointer to a record is the offset of the record in the table;
the counters of `s_madt_info` are the lengths of the lists. -/
structure MadtState where
  localApicPtr : BitVec 64
  arrays : MadtArray → List Nat
  calls : List MadtCall

/-- `none` is a store beyond the end of the array. -/
def madtStore (array : MadtArray) (record : Nat) (s : MadtState) : Option MadtState :=
  if (s.arrays array).length < array.capacity then
    some { s with arrays := Function.update s.arrays array (s.arrays array ++ [record]) }
  else none

/-- The switch of `madt_init`. -/
def madtRecord (table : Nat → BitVec 8) (record : Nat) (s : MadtState) : Option MadtState :=
  match (table record).toNat with
  | 0 => madtStore .processors record s
  | 1 =>
      let ioapicPtr := (readUint32 table (record + 4)).zeroExtend 64
      madtStore .ioapics record { s with calls := s.calls ++ mapDevice ioapicPtr }
  | 2 => madtStore .isos record s
  | 4 => madtStore .nmis record s
  | 5 => some { s with localApicPtr := readUint64 table (record + 4) }
  | _ => some s

/-- `sizeof(struct MADTHeader)`. -/
def sizeofMadtHeader : Nat := 44

/-- `madt->header.length - sizeof(struct MADTHeader)`, which is unsigned. -/
def madtBound (table : Nat → BitVec 8) : Nat :=
  ((readUint32 table 4).toNat + 2 ^ 64 - sizeofMadtHeader) % 2 ^ 64

/-- Still in the loop after the given rounds, out of an array, or at the end. -/
inductive MadtOutcome
  | running
  | overrun
  | finished (s : MadtState)

instance : ∀ outcome : MadtOutcome, Decidable (outcome = .overrun)
  | .running => isFalse nofun
  | .overrun => isTrue rfl
  | .finished _ => isFalse nofun

/-- The loop of `madt_init`. -/
def madtLoop (table : Nat → BitVec 8) : Nat → Nat → MadtState → MadtOutcome
  | 0, _, _ => .running
  | rounds + 1, t, s =>
      if t < madtBound table then
        let record := sizeofMadtHeader + t
        let t := (t + (table (record + 1)).toNat) % 2 ^ 64
        match madtRecord table record s with
        | some s => madtLoop table rounds t s
        | none => .overrun
      else .finished s

/-- The state at the start of the loop, `s_madt_info` being zero. -/
def madtStart (table : Nat → BitVec 8) : MadtState :=
  ⟨(readUint32 table 36).zeroExtend 64, fun _ => [], [.reserveSize (readUint32 table 4)]⟩

def madtInit (rounds : Nat) (table : Nat → BitVec 8) : MadtOutcome :=
  match madtLoop table rounds 0 (madtStart table) with
  | .finished s => .finished { s with calls := s.calls ++ mapDevice s.localApicPtr }
  | outcome => outcome

/-! ## One record -/

/-- A record is appended to the array of its type, if there is one, or there is no room for it. -/
inductive RecordResult (table : Nat → BitVec 8) (record : Nat) (s : MadtState) :
    Option MadtState → Prop
  | overrun (a : MadtArray) : a.type = table record → a.capacity ≤ (s.arrays a).length →
      RecordResult table record s none
  | stored (t : MadtState) :
      (∀ a : MadtArray, a.type = table record → (s.arrays a).length < a.capacity) →
      (∀ a, t.arrays a = s.arrays a ++ if a.type = table record then [record] else []) →
      (t.localApicPtr =
        if table record = 5 then readUint64 table (record + 4) else s.localApicPtr) →
      RecordResult table record s (some t)

section Records

variable {table : Nat → BitVec 8} {record : Nat} {s : MadtState}

private theorem madtStore_result {array : MadtArray} {s' : MadtState}
    (htype : array.type = table record)
    (harrays : s'.arrays = s.arrays) (hptr : s'.localApicPtr = s.localApicPtr) :
    RecordResult table record s (madtStore array record s') := by
  have hother : ∀ a : MadtArray, a.type = table record ↔ a = array := by
    intro a
    rw [← htype]
    exact ⟨MadtArray.type_injective, fun h => h ▸ rfl⟩
  rw [madtStore, harrays]
  split
  · rename_i hroom
    apply RecordResult.stored
    · intro a ha
      rw [(hother a).mp ha]
      exact hroom
    · intro a
      simp only [hother a]
      rcases eq_or_ne a array with rfl | hne
      · simp
      · simp [hne]
    · have hfive : table record ≠ 5 := by
        rw [← htype]
        cases array <;> decide
      rw [if_neg hfive]
      exact hptr
  · rename_i hfull
    exact .overrun array htype (Nat.not_lt.mp hfull)

private theorem other_result {t : MadtState} (hnone : ∀ a : MadtArray, a.type ≠ table record)
    (harrays : t.arrays = s.arrays)
    (hptr : t.localApicPtr =
      if table record = 5 then readUint64 table (record + 4) else s.localApicPtr) :
    RecordResult table record s (some t) := by
  apply RecordResult.stored
  · exact fun a ha => absurd ha (hnone a)
  · intro a
    rw [harrays, if_neg (hnone a), List.append_nil]
  · exact hptr

private theorem madtRecord_result (table : Nat → BitVec 8) (record : Nat) (s : MadtState) :
    RecordResult table record s (madtRecord table record s) := by
  rw [madtRecord]
  split
  · rename_i h
    exact madtStore_result (BitVec.eq_of_toNat_eq h.symm) rfl rfl
  · rename_i h
    exact madtStore_result (BitVec.eq_of_toNat_eq h.symm) rfl rfl
  · rename_i h
    exact madtStore_result (BitVec.eq_of_toNat_eq h.symm) rfl rfl
  · rename_i h
    exact madtStore_result (BitVec.eq_of_toNat_eq h.symm) rfl rfl
  · rename_i h
    have htype : table record = 5 := BitVec.eq_of_toNat_eq h
    refine other_result ?_ rfl (by rw [if_pos htype])
    intro a
    rw [htype]
    cases a <;> decide
  · rename_i h0 h1 h2 h4 h5
    refine other_result ?_ rfl (by rw [if_neg fun h => h5 (by rw [h]; rfl)])
    intro a ha
    cases a
    · exact h0 (by rw [← ha]; rfl)
    · exact h1 (by rw [← ha]; rfl)
    · exact h2 (by rw [← ha]; rfl)
    · exact h4 (by rw [← ha]; rfl)

end Records

/-! ## A well-formed table -/

/-- The sizes of the structures a record is cast to, by its type. -/
def madtStructureSize (type : BitVec 8) : Nat :=
  match type.toNat with
  | 0 => 8
  | 1 => 12
  | 2 => 10
  | 4 => 6
  | 5 => 12
  | _ => 2

/-- A record as the firmware writes it, at least as long as its structure. -/
structure MadtRecord where
  type : BitVec 8
  rest : List (BitVec 8)
  length_le : rest.length + 2 ≤ 255
  structure_le : madtStructureSize type ≤ rest.length + 2

namespace MadtRecord

def bytes (r : MadtRecord) : List (BitVec 8) :=
  r.type :: BitVec.ofNat 8 (r.rest.length + 2) :: r.rest

/-- `local_apic_address` of `MADTLocalAPICAddressOverride`. -/
def localApicAddress (r : MadtRecord) : BitVec 64 := readUint64 (fun i => r.bytes.getD i 0) 4

private theorem length_bytes (r : MadtRecord) : r.bytes.length = r.rest.length + 2 := rfl

end MadtRecord

/-- The records with their offsets, the first being at `offset`. -/
def recordOffsets : Nat → List MadtRecord → List (Nat × MadtRecord)
  | _, [] => []
  | offset, r :: records => (offset, r) :: recordOffsets (offset + r.bytes.length) records

/-- The offsets of the records that belong into an array, in their order. -/
def recordsOf (array : MadtArray) (offset : Nat) (records : List MadtRecord) : List Nat :=
  ((recordOffsets offset records).filter fun r => r.2.type = array.type).map Prod.fst

/-- The address in the last override of the local APIC's address, if there is one. -/
def lastLocalApicAddress (address : BitVec 64) (records : List MadtRecord) : BitVec 64 :=
  (((records.filter fun r => r.type = 5).getLast?).map MadtRecord.localApicAddress).getD address

/-- The body of the table is exactly the given records. -/
structure IsMadt (table : Nat → BitVec 8) (records : List MadtRecord) : Prop where
  length : (readUint32 table 4).toNat = sizeofMadtHeader + (records.flatMap MadtRecord.bytes).length
  content : ∀ i, i < (records.flatMap MadtRecord.bytes).length →
    (records.flatMap MadtRecord.bytes)[i]? = some (table (sizeofMadtHeader + i))

section WellFormed

variable {table : Nat → BitVec 8} {records : List MadtRecord} {r : MadtRecord} {s : MadtState}

private theorem length_recordsOf (array : MadtArray) (offset : Nat) (records : List MadtRecord) :
    (recordsOf array offset records).length =
      (records.filter fun r => r.type = array.type).length := by
  induction records generalizing offset with
  | nil => rfl
  | cons r records ih =>
      have hrest := ih (offset + r.bytes.length)
      rw [recordsOf] at hrest ⊢
      rw [recordOffsets]
      by_cases htype : r.type = array.type
      · simpa [List.filter_cons, htype] using hrest
      · simpa [List.filter_cons, htype] using hrest

private theorem recordsOf_cons (array : MadtArray) (offset : Nat) :
    recordsOf array offset (r :: records) =
      (if array.type = r.type then [offset] else []) ++
        recordsOf array (offset + r.bytes.length) records := by
  rw [recordsOf, recordsOf, recordOffsets]
  by_cases htype : array.type = r.type
  · simp [htype]
  · simp [htype, Ne.symm htype]

private theorem lastLocalApicAddress_cons (address : BitVec 64) :
    lastLocalApicAddress address (r :: records) =
      lastLocalApicAddress (if r.type = 5 then r.localApicAddress else address) records := by
  rw [lastLocalApicAddress, lastLocalApicAddress]
  by_cases htype : r.type = 5
  · rw [List.filter_cons_of_pos (by simpa using htype), if_pos htype, List.getLast?_cons]
    cases (records.filter fun r => r.type = 5).getLast? <;> rfl
  · rw [List.filter_cons_of_neg (by simpa using htype), if_neg htype]

/-- The table holds the given bytes from an offset on. -/
def Holds (table : Nat → BitVec 8) (offset : Nat) (bytes : List (BitVec 8)) : Prop :=
  ∀ i, i < bytes.length → bytes[i]? = some (table (offset + i))

private theorem Holds.append {offset : Nat} {a b : List (BitVec 8)}
    (h : Holds table offset (a ++ b)) :
    Holds table offset a ∧ Holds table (offset + a.length) b := by
  constructor
  · intro i hi
    rw [← h i (by rw [List.length_append]; omega), List.getElem?_append_left hi]
  · intro i hi
    have := h (a.length + i) (by rw [List.length_append]; omega)
    rwa [List.getElem?_append_right (by omega), Nat.add_sub_cancel_left, ← Nat.add_assoc] at this

theorem readUint64_congr {f g : Nat → BitVec 8} {k l : Nat} (h : ∀ j < 8, f (k + j) = g (l + j)) :
    readUint64 f k = readUint64 g l := by
  simp only [readUint64, readUint32, Nat.add_assoc, Nat.reduceAdd, h 1 (by decide), h 2 (by decide),
    h 3 (by decide), h 4 (by decide), h 5 (by decide), h 6 (by decide), h 7 (by decide),
    show f k = g l from h 0 (by decide)]

private theorem Holds.record {offset : Nat} (h : Holds table offset r.bytes) :
    table offset = r.type ∧ (table (offset + 1)).toNat = r.bytes.length ∧
      (r.type = 5 → readUint64 table (offset + 4) = r.localApicAddress) := by
  have hlength := r.length_bytes
  have hle := r.length_le
  refine ⟨?_, ?_, ?_⟩
  · have := h 0 (by omega)
    exact (Option.some.inj this).symm
  · have := h 1 (by omega)
    rw [← Option.some.inj this, BitVec.toNat_ofNat, hlength]
    exact Nat.mod_eq_of_lt (by omega)
  · intro htype
    have hsize := r.structure_le
    rw [htype, show madtStructureSize 5 = 12 from rfl] at hsize
    apply readUint64_congr
    intro j hj
    rw [List.getD_eq_getElem?_getD, h (4 + j) (by omega), Option.getD_some, Nat.add_assoc]

private theorem madtLoop_records {t : Nat}
    (hbound : t + (records.flatMap MadtRecord.bytes).length = madtBound table)
    (hholds : Holds table (sizeofMadtHeader + t) (records.flatMap MadtRecord.bytes))
    (hroom : ∀ a : MadtArray, (s.arrays a).length +
      (records.filter fun r => r.type = a.type).length ≤ a.capacity) :
    ∃ s', madtLoop table (records.length + 1) t s = .finished s' ∧
      (∀ a, s'.arrays a = s.arrays a ++ recordsOf a (sizeofMadtHeader + t) records) ∧
      s'.localApicPtr = lastLocalApicAddress s.localApicPtr records := by
  induction records generalizing t s with
  | nil =>
      refine ⟨s, ?_, ?_, rfl⟩
      · rw [madtLoop, if_neg]
        simp only [List.flatMap_nil, List.length_nil] at hbound
        omega
      · intro a
        rw [recordsOf, recordOffsets]
        simp
  | cons r records ih =>
      rw [List.flatMap_cons] at hbound hholds
      obtain ⟨hfirst, hrest⟩ := hholds.append
      obtain ⟨htype, hlength, hoverride⟩ := hfirst.record
      have hle := r.length_le
      have hpos := r.length_bytes
      rw [List.length_append] at hbound
      have hbound' : madtBound table < 2 ^ 64 := Nat.mod_lt _ (by decide)
      have hnext : (t + (table (sizeofMadtHeader + t + 1)).toNat) % 2 ^ 64 = t + r.bytes.length := by
        rw [hlength, Nat.mod_eq_of_lt (by omega)]
      rw [List.length_cons, madtLoop, if_pos (by omega)]
      dsimp only
      rw [hnext]
      have hresult := madtRecord_result table (sizeofMadtHeader + t) s
      generalize madtRecord table (sizeofMadtHeader + t) s = result at hresult ⊢
      cases hresult with
      | overrun a ha hfull =>
          have := hroom a
          rw [List.filter_cons_of_pos (by simp [ha, htype]), List.length_cons] at this
          omega
      | stored s' hspace harrays hptr =>
          rw [htype] at harrays hptr
          have hroom' : ∀ a : MadtArray, (s'.arrays a).length +
              (records.filter fun r => r.type = a.type).length ≤ a.capacity := by
            intro a
            have := hroom a
            rw [harrays a, List.length_append]
            by_cases ha : a.type = r.type
            · rw [List.filter_cons_of_pos (by simp [ha]), List.length_cons] at this
              rw [if_pos ha, List.length_singleton]
              omega
            · rw [List.filter_cons_of_neg (by simp [Ne.symm ha])] at this
              rw [if_neg ha, List.length_nil]
              omega
          obtain ⟨s'', hloop, harrays', hptr'⟩ := @ih s' (t + r.bytes.length) (by omega)
            (by rwa [← Nat.add_assoc]) hroom'
          refine ⟨s'', hloop, ?_, ?_⟩
          · intro a
            rw [harrays' a, harrays a, recordsOf_cons, List.append_assoc, Nat.add_assoc]
          · rw [hptr', lastLocalApicAddress_cons, hptr]
            by_cases hfive : r.type = 5
            · rw [if_pos hfive, if_pos hfive, hoverride hfive]
            · rw [if_neg hfive, if_neg hfive]

/-- What the body of the table gives. -/
theorem madt_init_parses (h : IsMadt table records)
    (hcapacity : ∀ a : MadtArray, (records.filter fun r => r.type = a.type).length ≤ a.capacity) :
    ∃ s, madtInit (records.length + 1) table = .finished s ∧
      (∀ a, s.arrays a = recordsOf a sizeofMadtHeader records ∧
        (s.arrays a).length = (records.filter fun r => r.type = a.type).length) ∧
      s.localApicPtr = lastLocalApicAddress ((readUint32 table 36).zeroExtend 64) records := by
  have hbound : 0 + (records.flatMap MadtRecord.bytes).length = madtBound table := by
    have hlt := (readUint32 table 4).isLt
    rw [madtBound, h.length]
    rw [h.length] at hlt
    omega
  obtain ⟨s, hloop, harrays, hptr⟩ := madtLoop_records (s := madtStart table) hbound h.content
    (by simpa [madtStart] using hcapacity)
  refine ⟨{ s with calls := s.calls ++ mapDevice s.localApicPtr }, ?_, ?_, hptr⟩
  · rw [madtInit, hloop]
  · intro a
    have ha : s.arrays a = recordsOf a sizeofMadtHeader records := harrays a
    exact ⟨ha, by rw [ha, length_recordsOf]⟩

end WellFormed

/-- A processor, the IOAPIC and a local APIC above 4 GiB. -/
def smallRecords : List MadtRecord :=
  [⟨0, [0, 0, 1, 0, 0, 0], by decide, by decide⟩,
    ⟨1, [1, 0, 0, 0, 0xc0, 0xfe, 0, 0, 0, 0], by decide, by decide⟩,
    ⟨5, [0, 0, 0, 0, 0xe0, 0xfe, 1, 0, 0, 0], by decide, by decide⟩]

/-- The table with these records: its length is 76, the address in its header 0xfee00000. -/
def smallTable (i : Nat) : BitVec 8 :=
  if i = 4 then 76 else if i = 38 then 0xe0 else if i = 39 then 0xfe
  else (smallRecords.flatMap MadtRecord.bytes).getD (i - sizeofMadtHeader) 0

theorem madt_init_parses_three :
    ∃ s, madtInit 4 smallTable = .finished s ∧ s.arrays .processors = [44] ∧
      s.arrays .ioapics = [52] ∧ s.localApicPtr = 0x1fee00000 := by
  obtain ⟨s, hs, harrays, hptr⟩ := @madt_init_parses smallTable smallRecords
    ⟨by decide, by decide⟩ (by intro a; cases a <;> decide)
  exact ⟨s, hs, (harrays .processors).1, (harrays .ioapics).1, hptr⟩

/-! ## Any table -/

/-- The offsets of the records that the loop comes to in the given number of rounds. -/
def madtWalk (table : Nat → BitVec 8) : Nat → Nat → List Nat
  | 0, _ => []
  | rounds + 1, t =>
      if t < madtBound table then
        (sizeofMadtHeader + t) ::
          madtWalk table rounds ((t + (table (sizeofMadtHeader + t + 1)).toNat) % 2 ^ 64)
      else []

/-- How many records of one array the loop comes to. -/
def walkedRecords (table : Nat → BitVec 8) (array : MadtArray) (rounds t : Nat) : Nat :=
  ((madtWalk table rounds t).filter fun record => table record = array.type).length

section Overruns

variable {table : Nat → BitVec 8} {s : MadtState} {rounds t : Nat}

private theorem walkedRecords_succ (array : MadtArray) (ht : t < madtBound table) :
    walkedRecords table array (rounds + 1) t =
      (if array.type = table (sizeofMadtHeader + t) then 1 else 0) +
        walkedRecords table array rounds
          ((t + (table (sizeofMadtHeader + t + 1)).toNat) % 2 ^ 64) := by
  rw [walkedRecords, walkedRecords, madtWalk, if_pos ht]
  by_cases htype : array.type = table (sizeofMadtHeader + t)
  · rw [List.filter_cons_of_pos (by simp [htype]), List.length_cons, if_pos htype, Nat.add_comm]
  · rw [List.filter_cons_of_neg (by simp [Ne.symm htype]), if_neg htype, Nat.zero_add]

/-- The loop leaves an array exactly when more records come than there is room for, and otherwise
keeps all counts within the arrays. -/
theorem madtLoop_outcome (hroom : ∀ a : MadtArray, (s.arrays a).length ≤ a.capacity) :
    (madtLoop table rounds t s = .overrun ↔
        ∃ a : MadtArray, a.capacity < (s.arrays a).length + walkedRecords table a rounds t) ∧
      ∀ s', madtLoop table rounds t s = .finished s' →
        ∀ a : MadtArray, (s'.arrays a).length ≤ a.capacity := by
  induction rounds generalizing t s with
  | zero =>
      refine ⟨iff_of_false (by simp [madtLoop]) ?_, by simp [madtLoop]⟩
      rintro ⟨a, ha⟩
      have := hroom a
      simp only [walkedRecords, madtWalk, List.filter_nil, List.length_nil] at ha
      omega
  | succ rounds ih =>
      rw [madtLoop]
      by_cases ht : t < madtBound table
      · rw [if_pos ht]
        simp only [walkedRecords_succ _ ht]
        have hresult := madtRecord_result table (sizeofMadtHeader + t) s
        generalize madtRecord table (sizeofMadtHeader + t) s = result at hresult ⊢
        cases hresult with
        | overrun a ha hfull =>
            refine ⟨iff_of_true rfl ⟨a, ?_⟩, by simp⟩
            rw [if_pos ha]
            omega
        | stored s' hspace harrays _ =>
            have hlength : ∀ a : MadtArray, (s'.arrays a).length = (s.arrays a).length +
                if a.type = table (sizeofMadtHeader + t) then 1 else 0 := by
              intro a
              rw [harrays a, List.length_append]
              split <;> rfl
            have hroom' : ∀ a : MadtArray, (s'.arrays a).length ≤ a.capacity := by
              intro a
              rw [hlength a]
              split
              · exact hspace a ‹_›
              · exact hroom a
            obtain ⟨hoverrun, hfinished⟩ := @ih s'
              ((t + (table (sizeofMadtHeader + t + 1)).toNat) % 2 ^ 64) hroom'
            refine ⟨?_, hfinished⟩
            rw [hoverrun]
            simp only [hlength, Nat.add_assoc]
      · rw [if_neg ht]
        refine ⟨iff_of_false (by simp) ?_, ?_⟩
        · rintro ⟨a, ha⟩
          have := hroom a
          simp only [walkedRecords, madtWalk, if_neg ht, List.filter_nil, List.length_nil] at ha
          omega
        · intro s' hs'
          obtain rfl := MadtOutcome.finished.inj hs'
          exact hroom

/-- `madt_init` stores inside its arrays only and keeps its counters within them. -/
def MadtContained (table : Nat → BitVec 8) : Prop :=
  ∀ rounds, madtInit rounds table ≠ .overrun ∧
    ∀ s, madtInit rounds table = .finished s → ∀ a : MadtArray, (s.arrays a).length ≤ a.capacity

private theorem madtContained_iff (table : Nat → BitVec 8) :
    MadtContained table ↔ ∀ rounds (a : MadtArray), walkedRecords table a rounds 0 ≤ a.capacity := by
  have hloop := fun rounds => @madtLoop_outcome table (madtStart table) rounds 0
    (by simp [madtStart])
  have hcount : ∀ (a : MadtArray) n, ((madtStart table).arrays a).length + n = n := by
    intro a n
    rw [show (madtStart table).arrays a = [] from rfl, List.length_nil, Nat.zero_add]
  simp only [hcount] at hloop
  have hinit : ∀ rounds, madtInit rounds table = .overrun ↔
      madtLoop table rounds 0 (madtStart table) = .overrun := by
    intro rounds
    rw [madtInit]
    cases madtLoop table rounds 0 (madtStart table) <;> simp
  constructor
  · intro h rounds a
    by_contra hlt
    exact (h rounds).1 ((hinit rounds).mpr ((hloop rounds).1.mpr ⟨a, Nat.not_le.mp hlt⟩))
  · intro h rounds
    refine ⟨?_, ?_⟩
    · intro hover
      obtain ⟨a, ha⟩ := (hloop rounds).1.mp ((hinit rounds).mp hover)
      exact absurd (h rounds a) (Nat.not_le.mpr ha)
    · intro s hs
      rw [madtInit] at hs
      cases hfinished : madtLoop table rounds 0 (madtStart table) with
      | running => simp [hfinished] at hs
      | overrun => simp [hfinished] at hs
      | finished s' =>
          rw [hfinished] at hs
          obtain rfl := MadtOutcome.finished.inj hs
          exact (hloop rounds).2 s' hfinished

end Overruns

/-- `MEMORY_MEMORYMAP_MAX_ENTRIES`. -/
def memoryMemorymapMaxEntries : Nat := 256

/-- The stores of `stivale2_get_memorymap`, with `none` for one beyond the end of the array. -/
def stivale2StoreMemorymap (entries : List Stivale2MemoryMapEntry) : Option (List MemoryMapEntry) :=
  (stivale2GetMemorymap entries).foldlM (fun stored entry =>
    if stored.length < memoryMemorymapMaxEntries then some (stored ++ [entry]) else none) []

private theorem foldlM_store {α : Type*} (capacity : Nat) (stored entries : List α)
    (hroom : stored.length ≤ capacity) :
    entries.foldlM (fun stored entry =>
        if stored.length < capacity then some (stored ++ [entry]) else none) stored =
      if stored.length + entries.length ≤ capacity then some (stored ++ entries) else none := by
  induction entries generalizing stored with
  | nil => simp [hroom]
  | cons entry entries ih =>
      rw [List.foldlM_cons]
      by_cases hlt : stored.length < capacity
      · rw [if_pos hlt, Option.bind_eq_bind, Option.bind_some, ih _ (by simpa using hlt)]
        simp [Nat.add_assoc, Nat.add_comm 1]
      · rw [if_neg hlt, if_neg (by simp only [List.length_cons]; omega)]
        rfl

/-- The map is kept whole if it fits and overruns the array otherwise. -/
theorem stivale2StoreMemorymap_eq (entries : List Stivale2MemoryMapEntry) :
    stivale2StoreMemorymap entries =
      if entries.length ≤ memoryMemorymapMaxEntries then some (stivale2GetMemorymap entries)
      else none := by
  rw [stivale2StoreMemorymap, foldlM_store _ _ _ (Nat.zero_le _)]
  simp [stivale2GetMemorymap]

theorem firmware_tables_contained_iff (table : Nat → BitVec 8)
    (entries : List Stivale2MemoryMapEntry) :
    (MadtContained table ∧ ∃ stored, stivale2StoreMemorymap entries = some stored ∧
        stored.length ≤ memoryMemorymapMaxEntries) ↔
      (∀ rounds (a : MadtArray), walkedRecords table a rounds 0 ≤ a.capacity) ∧
        entries.length ≤ memoryMemorymapMaxEntries := by
  rw [madtContained_iff, stivale2StoreMemorymap_eq]
  apply and_congr_right
  intro _
  by_cases hle : entries.length ≤ memoryMemorymapMaxEntries
  · simp [hle, stivale2GetMemorymap]
  · simp [hle]

/-- Nine records for non-maskable interrupts, one for each of nine processors. -/
def nineNmis (i : Nat) : BitVec 8 :=
  if i = 4 then 98 else if i < sizeofMadtHeader then 0
  else if (i - sizeofMadtHeader) % 6 = 0 then 4
  else if (i - sizeofMadtHeader) % 6 = 1 then 6
  else 0

theorem firmware_tables_overrun : madtInit 9 nineNmis = .overrun ∧ ¬MadtContained nineNmis := by
  have hover : madtInit 9 nineNmis = .overrun := by decide +kernel
  exact ⟨hover, fun h => (h 9).1 hover⟩

end VisualOS.Kernel
